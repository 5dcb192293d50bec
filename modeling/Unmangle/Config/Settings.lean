import Unmangle.Config.Basic

set_option autoImplicit false

/-! # Effective settings

The settings that count in the end: what the configurations say, and the defaults for the rest.
-/

namespace Unmangle

structure LoadedConfig where
  config : Config
  path : Path
  deriving DecidableEq, Repr

/-- Settings that leave nothing open. -/
structure Settings where
  fields : Path
  methods : Path
  column : Text
  extensions : List Text
  skipQuoted : Bool
  /-- The configuration files that were read, the most specific one first. -/
  sources : List Path
  deriving DecidableEq, Repr

namespace Settings

def defaults (start : Path) : Settings where
  fields := start.join (.ofString "fields.csv")
  methods := start.join (.ofString "methods.csv")
  column := "name".toList
  extensions := ["java".toList]
  skipQuoted := true
  sources := []

/-- A path that a configuration names, seen from the folder of its file. -/
def resolve (start : Path) (loaded : LoadedConfig) (p : Path) : Path :=
  (loaded.path.parent?.getD start).join p

/-! ## Merging -/

/-- The settings that some configurations make. What is missing is left to others. -/
structure Draft where
  fields : Option Path
  methods : Option Path
  column : Option Text
  extensions : Option (List Text)
  skipQuoted : Option Bool
  sources : List Path
  deriving DecidableEq, Repr

namespace Draft

def empty : Draft := ⟨none, none, none, none, none, []⟩

/-- Takes in one more configuration, which makes only settings that are still missing. -/
def add (start : Path) (d : Draft) (loaded : LoadedConfig) : Draft where
  fields := d.fields.or (loaded.config.fields.map (resolve start loaded))
  methods := d.methods.or (loaded.config.methods.map (resolve start loaded))
  column := d.column.or loaded.config.column
  extensions := d.extensions.or loaded.config.extensions
  skipQuoted := d.skipQuoted.or loaded.config.skipQuoted
  sources := d.sources ++ [loaded.path]

/-- The settings with the defaults for what is missing. Extensions lose their leading dots. -/
def complete (start : Path) (d : Draft) : Settings :=
  let base := defaults start
  { fields := d.fields.getD base.fields
    methods := d.methods.getD base.methods
    column := d.column.getD base.column
    extensions := (d.extensions.map (·.map Text.dropDots)).getD base.extensions
    skipQuoted := d.skipQuoted.getD base.skipQuoted
    sources := base.sources ++ d.sources }

end Draft

/-- The settings of some configurations, the most specific one first. -/
def merge (configs : List LoadedConfig) (start : Path) : Settings :=
  (configs.foldl (Draft.add start) .empty).complete start

end Settings

end Unmangle
