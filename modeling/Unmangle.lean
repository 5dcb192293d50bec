import Unmangle.Decode.Clipboard
import Unmangle.Main
import Unmangle.Trie.Copy
import Unmangle.Proofs.Trie.Histories
import Unmangle.Proofs.Trie.Canonical
import Unmangle.Proofs.Decode.Spans
import Unmangle.Proofs.Table.Keys
import Unmangle.Proofs.Files.Copies
import Unmangle.Proofs.Table.Lines
import Unmangle.Proofs.Decode.Separators
import Unmangle.Proofs.Decode.Renamed
import Unmangle.Proofs.Decode.Repeating
import Unmangle.Proofs.Decode.Reordering
import Unmangle.Proofs.Decode.Restoring
import Unmangle.Proofs.Decode.Matching
import Unmangle.Proofs.Command.Dumps
import Unmangle.Proofs.Files.Siblings
import Unmangle.Proofs.Files.Links
import Unmangle.Proofs.Config.Discovery
import Unmangle.Proofs.Files.Outputs
import Unmangle.Proofs.Files.Ledger
import Unmangle.Proofs.Files.Rewriting
import Unmangle.Proofs.Command.Ways
import Unmangle.Proofs.Table.Grammar
import Unmangle.Proofs.Table.Written
import Unmangle.Proofs.Pattern.Depth
import Unmangle.Proofs.Trie.Nesting
import Unmangle.Proofs.Decode.Limits
import Unmangle.Proofs.Config.Merging
import Unmangle.Proofs.Config.Extensions
import Unmangle.Proofs.Files.Dots
import Unmangle.Proofs.Decode.Columns
import Unmangle.Proofs.Command.Loading
import Unmangle.Proofs.Table.Dumping
import Unmangle.Proofs.Trie.Nodes
import Unmangle.Proofs.Trie.Outlines
import Unmangle.Proofs.Trie.Sharing
import Unmangle.Proofs.Trie.Writing
import Unmangle.Proofs.Trie.Copies
