import CommandGrammar.Main
import CommandGrammar.Proofs.CommandLine.Reads
import CommandGrammar.Proofs.Definition.JsonRoundTrip
import CommandGrammar.Proofs.Definition.Mirror
import CommandGrammar.Proofs.Definition.Permissions
import CommandGrammar.Proofs.Reader.Context
import CommandGrammar.Proofs.Reader.Safety
import CommandGrammar.Proofs.Text.ByteOrder
import CommandGrammar.Proofs.Tree.Destinations
import CommandGrammar.Proofs.Tree.Enumeration
import CommandGrammar.Proofs.Tree.FaithfulSnapshot
import CommandGrammar.Proofs.Tree.FirstFault
import CommandGrammar.Proofs.Tree.Growing
import CommandGrammar.Proofs.Tree.JsonRoundTrip
import CommandGrammar.Proofs.Tree.Keywords
import CommandGrammar.Proofs.Tree.Merging
import CommandGrammar.Reader.Words
import CommandGrammar.Tree.Describe
import CommandGrammar.Proofs.Tree.Idempotence
import CommandGrammar.Proofs.Tree.Fragments
import CommandGrammar.Proofs.Reader.LongestMatch
import CommandGrammar.Proofs.Definition.Duplicates
import CommandGrammar.Proofs.CommandLine.Listings
import CommandGrammar.Proofs.Number.Rounding
import CommandGrammar.Proofs.Number.Shortest
import CommandGrammar.Proofs.Number.Digits
import CommandGrammar.Proofs.Json.Scaling
import CommandGrammar.Proofs.Json.Decimals
import CommandGrammar.Proofs.Reader.Integers
import CommandGrammar.Proofs.Reader.ErrorContext
import CommandGrammar.Proofs.CommandLine.Lex
import CommandGrammar.Proofs.Reader.IntegerReads
import CommandGrammar.Proofs.Reader.FloatReads
import CommandGrammar.Proofs.Reader.BoundedReads
import CommandGrammar.Proofs.Definition.PermissionLists
import CommandGrammar.Proofs.Tree.PathListing
import CommandGrammar.Proofs.Tree.UnambiguousPaths
import CommandGrammar.Proofs.Json.UntaggedValues
import CommandGrammar.Proofs.Reader.PrintedIntegers
import CommandGrammar.Proofs.Definition.Reachable
import CommandGrammar.Proofs.Tree.KeyedSnapshots
