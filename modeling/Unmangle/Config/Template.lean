import Unmangle.Text.Basic

set_option autoImplicit false

/-! # The configuration to start from

The text of a new configuration file: every setting with its default and a word of explanation.
-/

namespace Unmangle.Config

def templateLines : List String :=
  ["# demap configuration",
   "#",
   "# Settings in a .demap.toml closer to the working directory win over",
   "# settings in parent directories and in ~/.demap.toml.",
   "",
   "# Stop looking for .demap.toml files in parent directories.",
   "root = true",
   "",
   "# Mapping tables, relative to this file. The first column is the obfuscated",
   "# identifier; the header names the remaining columns.",
   "fields = \"fields.csv\"",
   "methods = \"methods.csv\"",
   "",
   "# Column whose value replaces a matched identifier.",
   "column = \"name\"",
   "",
   "# Source files to rewrite.",
   "extensions = [\"java\"]",
   "",
   "# Leave identifiers directly after a double quote untouched.",
   "skip-quoted = true"]

/-- The text of a new configuration file. -/
def template : Text := (String.join (templateLines.map (· ++ "\n"))).toList

end Unmangle.Config
