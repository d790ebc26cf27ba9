import PixelUnit.Command.Basic
import PixelUnit.Command.Call
import PixelUnit.Command.Frontend
import PixelUnit.Command.Host
import PixelUnit.Command.Line
import PixelUnit.Command.Machine
import PixelUnit.Command.Misuse
import PixelUnit.Command.Plain
import PixelUnit.Command.Switch
import PixelUnit.Forest.Attribute
import PixelUnit.Forest.Basic
import PixelUnit.Forest.Edit
import PixelUnit.Forest.Walk
import PixelUnit.Json
import PixelUnit.Log
import PixelUnit.Main
import PixelUnit.Memory.Copy
import PixelUnit.Memory.Object
import PixelUnit.Memory.Reading
import PixelUnit.Number.Shortest
import PixelUnit.Proofs.Command.Disk
import PixelUnit.Proofs.Command.Endings
import PixelUnit.Proofs.Command.Handling
import PixelUnit.Proofs.Command.InPlace
import PixelUnit.Proofs.Command.OneByOne
import PixelUnit.Proofs.Command.Untouched
import PixelUnit.Proofs.Forest.Actions
import PixelUnit.Proofs.Forest.Additions
import PixelUnit.Proofs.Forest.Apart
import PixelUnit.Proofs.Forest.Boundaries
import PixelUnit.Proofs.Forest.Clones
import PixelUnit.Proofs.Forest.Consistent
import PixelUnit.Proofs.Forest.Copies
import PixelUnit.Proofs.Forest.Courses
import PixelUnit.Proofs.Forest.Failures
import PixelUnit.Proofs.Forest.Growing
import PixelUnit.Proofs.Forest.Handover
import PixelUnit.Proofs.Forest.History
import PixelUnit.Proofs.Forest.Moves
import PixelUnit.Proofs.Forest.Performing
import PixelUnit.Proofs.Forest.Places
import PixelUnit.Proofs.Forest.Planted
import PixelUnit.Proofs.Forest.SafeIteration
import PixelUnit.Proofs.Forest.SavedChildren
import PixelUnit.Proofs.Forest.SavedFields
import PixelUnit.Proofs.Forest.Seen
import PixelUnit.Proofs.Forest.Shifts
import PixelUnit.Proofs.Forest.Visits
import PixelUnit.Proofs.Forest.Walk
import PixelUnit.Proofs.Forest.WalkOrder
import PixelUnit.Proofs.Lists
import PixelUnit.Proofs.Memory.Clones
import PixelUnit.Proofs.Memory.Copying
import PixelUnit.Proofs.Memory.Detaching
import PixelUnit.Proofs.Memory.Layouts
import PixelUnit.Proofs.Memory.NodeCopies
import PixelUnit.Proofs.Memory.Nodes
import PixelUnit.Proofs.Memory.Sides
import PixelUnit.Proofs.Memory.TreeCopies
import PixelUnit.Proofs.Regex.Rounds
import PixelUnit.Proofs.Settings.Layers
import PixelUnit.Proofs.Settings.Literals
import PixelUnit.Proofs.Settings.Mappings
import PixelUnit.Proofs.Settings.Messages
import PixelUnit.Proofs.Settings.Precedence
import PixelUnit.Proofs.Settings.Spelling
import PixelUnit.Proofs.Settings.TextPlaces
import PixelUnit.Proofs.Sheet.Ahead
import PixelUnit.Proofs.Sheet.Bare
import PixelUnit.Proofs.Sheet.BraceBehind
import PixelUnit.Proofs.Sheet.Brackets
import PixelUnit.Proofs.Sheet.BrokenOff
import PixelUnit.Proofs.Sheet.Calls
import PixelUnit.Proofs.Sheet.CharsetRules
import PixelUnit.Proofs.Sheet.Cleaning
import PixelUnit.Proofs.Sheet.Comments
import PixelUnit.Proofs.Sheet.Delimited
import PixelUnit.Proofs.Sheet.Escapes
import PixelUnit.Proofs.Sheet.Exchange
import PixelUnit.Proofs.Sheet.FlatReading
import PixelUnit.Proofs.Sheet.Importance
import PixelUnit.Proofs.Sheet.Insertions
import PixelUnit.Proofs.Sheet.LetterWords
import PixelUnit.Proofs.Sheet.Lexemes
import PixelUnit.Proofs.Sheet.Lexing
import PixelUnit.Proofs.Sheet.LoneSemicolons
import PixelUnit.Proofs.Sheet.Lossless
import PixelUnit.Proofs.Sheet.LostFeed
import PixelUnit.Proofs.Sheet.Matching
import PixelUnit.Proofs.Sheet.NewFields
import PixelUnit.Proofs.Sheet.NewNodes
import PixelUnit.Proofs.Sheet.OpenBrackets
import PixelUnit.Proofs.Sheet.OpenEnds
import PixelUnit.Proofs.Sheet.Origins
import PixelUnit.Proofs.Sheet.Outline
import PixelUnit.Proofs.Sheet.Placeless
import PixelUnit.Proofs.Sheet.Positions
import PixelUnit.Proofs.Sheet.Renewing
import PixelUnit.Proofs.Sheet.Reports
import PixelUnit.Proofs.Sheet.Rereading
import PixelUnit.Proofs.Sheet.Restored
import PixelUnit.Proofs.Sheet.RoundTrip
import PixelUnit.Proofs.Sheet.SavedTwice
import PixelUnit.Proofs.Sheet.Sealed
import PixelUnit.Proofs.Sheet.SecondReading
import PixelUnit.Proofs.Sheet.Spots
import PixelUnit.Proofs.Sheet.Stages
import PixelUnit.Proofs.Sheet.Statements
import PixelUnit.Proofs.Sheet.Steps
import PixelUnit.Proofs.Sheet.Survival
import PixelUnit.Proofs.Sheet.TagCuts
import PixelUnit.Proofs.Sheet.Tags
import PixelUnit.Proofs.Sheet.Trees
import PixelUnit.Proofs.Sheet.Turns
import PixelUnit.Proofs.Sheet.Widening
import PixelUnit.Proofs.Sheet.Words
import PixelUnit.Proofs.Sheet.Written
import PixelUnit.Proofs.Text.Contains
import PixelUnit.Proofs.Text.Extents
import PixelUnit.Proofs.Text.OneLine
import PixelUnit.Proofs.Text.Runs
import PixelUnit.Proofs.Transform.Again
import PixelUnit.Proofs.Transform.ConvertedTwice
import PixelUnit.Proofs.Transform.Counts
import PixelUnit.Proofs.Transform.GateChain
import PixelUnit.Proofs.Transform.Gates
import PixelUnit.Proofs.Transform.Insert
import PixelUnit.Proofs.Transform.NewValues
import PixelUnit.Proofs.Transform.OnePass
import PixelUnit.Proofs.Transform.Pieces
import PixelUnit.Proofs.Transform.Protected
import PixelUnit.Proofs.Transform.Replace
import PixelUnit.Proofs.Transform.Rewrite
import PixelUnit.Proofs.Transform.Runs
import PixelUnit.Proofs.Transform.Twice
import PixelUnit.Regex.Basic
import PixelUnit.Regex.Fault
import PixelUnit.Regex.Flags
import PixelUnit.Regex.Matcher
import PixelUnit.Regex.Pattern
import PixelUnit.Regex.Reader
import PixelUnit.Regex.Warning
import PixelUnit.Settings.Basic
import PixelUnit.Settings.Blacklist
import PixelUnit.Settings.Checking
import PixelUnit.Settings.Fault
import PixelUnit.Settings.Key
import PixelUnit.Settings.Mapping
import PixelUnit.Settings.Warning
import PixelUnit.Sheet.Declaration
import PixelUnit.Sheet.Encoding
import PixelUnit.Sheet.Fault
import PixelUnit.Sheet.File
import PixelUnit.Sheet.Lexeme
import PixelUnit.Sheet.Node
import PixelUnit.Sheet.NodeClass
import PixelUnit.Sheet.Position
import PixelUnit.Sheet.Reading
import PixelUnit.Sheet.Scanner
import PixelUnit.Sheet.Token
import PixelUnit.Sheet.Tree
import PixelUnit.Table
import PixelUnit.Text.Blank
import PixelUnit.Text.Case
import PixelUnit.Text.Digits
import PixelUnit.Text.Identifiers
import PixelUnit.Text.Integers
import PixelUnit.Text.Letters
import PixelUnit.Text.Printable
import PixelUnit.Text.Quoted
import PixelUnit.Text.Ranges
import PixelUnit.Transform.Basic
import PixelUnit.Transform.Gates
import PixelUnit.Transform.Lengths
import PixelUnit.Value
