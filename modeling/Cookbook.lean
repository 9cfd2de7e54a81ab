import Cookbook.BuildError
import Cookbook.CodePoint
import Cookbook.CommandLine
import Cookbook.Cooking
import Cookbook.Decimal
import Cookbook.Draft
import Cookbook.Draft.Book
import Cookbook.Draft.Grammar
import Cookbook.Draft.Proofread
import Cookbook.Ingredient
import Cookbook.Ingredient.Line
import Cookbook.Instruction
import Cookbook.Instruction.Sentence
import Cookbook.Kitchen.Bench
import Cookbook.Kitchen.Frame
import Cookbook.Kitchen.Refrigerator
import Cookbook.Kitchen.Serving
import Cookbook.Kitchen.Stack
import Cookbook.Location
import Cookbook.Loops
import Cookbook.Main
import Cookbook.Options
import Cookbook.ParseError
import Cookbook.Phrase
import Cookbook.Phrase.Pattern
import Cookbook.Program
import Cookbook.Program.Assembly
import Cookbook.Program.Listing
import Cookbook.Proofs.CommandLine.Arguments
import Cookbook.Proofs.CommandLine.EndToEnd
import Cookbook.Proofs.CommandLine.Numerals
import Cookbook.Proofs.Cooking.Blame
import Cookbook.Proofs.Cooking.Blocks
import Cookbook.Proofs.Cooking.Characters
import Cookbook.Proofs.Cooking.Commuting
import Cookbook.Proofs.Cooking.Countdown
import Cookbook.Proofs.Cooking.Failing
import Cookbook.Proofs.Cooking.Footprint
import Cookbook.Proofs.Cooking.Fuel
import Cookbook.Proofs.Cooking.InTurn
import Cookbook.Proofs.Cooking.Independence
import Cookbook.Proofs.Cooking.Inlining
import Cookbook.Proofs.Cooking.Moves
import Cookbook.Proofs.Cooking.Places
import Cookbook.Proofs.Cooking.Provisions
import Cookbook.Proofs.Cooking.Reckoning
import Cookbook.Proofs.Cooking.ServingDishes
import Cookbook.Proofs.Cooking.ServingWith
import Cookbook.Proofs.Cooking.Silence
import Cookbook.Proofs.Cooking.Structured
import Cookbook.Proofs.Cooking.Takings
import Cookbook.Proofs.Cooking.Termination
import Cookbook.Proofs.Draft.Citations
import Cookbook.Proofs.Draft.Complaints
import Cookbook.Proofs.Draft.Concatenation
import Cookbook.Proofs.Draft.Declarations
import Cookbook.Proofs.Draft.Derivations
import Cookbook.Proofs.Draft.Layout
import Cookbook.Proofs.Draft.Likeness
import Cookbook.Proofs.Draft.Lines
import Cookbook.Proofs.Draft.Manuscript
import Cookbook.Proofs.Draft.Parsed
import Cookbook.Proofs.Draft.Relocation
import Cookbook.Proofs.Draft.Rereading
import Cookbook.Proofs.Draft.Respacing
import Cookbook.Proofs.Draft.Sections
import Cookbook.Proofs.Instruction.PlainStatements
import Cookbook.Proofs.Instruction.ReadBack
import Cookbook.Proofs.Instruction.Spoken
import Cookbook.Proofs.Kitchen.Mixing
import Cookbook.Proofs.Kitchen.Stirring
import Cookbook.Proofs.Loops.Agreement
import Cookbook.Proofs.Loops.Concatenation
import Cookbook.Proofs.Loops.Pairing
import Cookbook.Proofs.Loops.Resolution
import Cookbook.Proofs.Phrase.Cuts
import Cookbook.Proofs.Phrase.FirstCut
import Cookbook.Proofs.Phrase.Notes
import Cookbook.Proofs.Phrase.Spellings
import Cookbook.Proofs.Phrase.Vessels
import Cookbook.Proofs.Phrase.Wordings
import Cookbook.Proofs.Program.AlphabetSoup
import Cookbook.Proofs.Program.Consistency
import Cookbook.Proofs.Program.LineEnds
import Cookbook.Proofs.Program.Names
import Cookbook.Proofs.Program.RoundTrip
import Cookbook.Proofs.Program.WellFormed
import Cookbook.Proofs.Text.Signed
import Cookbook.Proofs.Text.Utf8
import Cookbook.Proofs.Token.Bookmarks
import Cookbook.Proofs.Token.Joining
import Cookbook.Proofs.Token.Lexemes
import Cookbook.Proofs.Token.LineEnds
import Cookbook.Proofs.Token.Munch
import Cookbook.Proofs.Token.Seam
import Cookbook.Proofs.Token.Words
import Cookbook.Random.Shuffle
import Cookbook.Random.Twister
import Cookbook.Reading
import Cookbook.RunError
import Cookbook.Shelf
import Cookbook.Text
import Cookbook.Token
import Cookbook.Token.Cursor
