import CommandGrammar.CommandLine.Run
import CommandGrammar.Proofs.Json.Nesting
import CommandGrammar.Proofs.Text.ByteOrder
import CommandGrammar.Proofs.Tree.JsonRoundTrip

/-!
# Shown trees and listed paths

What `paths` lists can be had from what `tree` prints: its text is read back as the snapshots that it
was written from, and these list the same paths.
-/

namespace CommandGrammar

open Json

namespace Snapshot

/-- A list of snapshots. -/
def allOfReading (depth : Nat) : Reading → Except Json.Error (List Snapshot)
  | .array items ending => do
    let depth ← enter depth
    let snapshots ← ofReadings depth items
    Break.used? ending
    return snapshots
  | r => r.mismatch "a sequence"

def allOfJson (text : String) : Except Json.Error (List Snapshot) :=
  decode (allOfReading depthLimit) text.toList

theorem allOfReading_reading (ss : List Snapshot) (limit : Nat) :
    allOfReading limit (Data.list (toDataAll ss)).reading
      = within limit (Data.list (toDataAll ss)).nesting ss := by
  rw [Data.reading, Data.nesting, allOfReading]
  cases limit with
  | zero =>
      rw [within_of_lt (Nat.succ_pos _)]
      rfl
  | succ limit =>
      rw [enter, ok_bind, ofReadings_readingItems, within_add]
      cases within limit (Data.nestingItems (toDataAll ss)) ss <;> rfl

end Snapshot

namespace CommandLine

/-- Lines of text. -/
def lines (texts : List String) : String :=
  String.ofList (texts.flatMap fun text => text.toList ++ ['\n'])

/-- Both commands fail alike or both succeed. What the one shows, if it is not nested too deep to be
read, is a list of snapshots, and the other lists the paths of all of them in order. -/
structure ListsPathsOf (listed shown : Outcome) : Prop where
  exit : shown.exit = listed.exit
  stderr : shown.stderr = listed.stderr
  stdout : listed.exit = 0 → (Json.read shown.stdout.toList).1.nesting ≤ depthLimit →
    ∃ ss, Snapshot.allOfJson shown.stdout = .ok ss
      ∧ listed.stdout = lines (Text.sort (ss.flatMap Snapshot.paths))

theorem readable_snapshots (ss : List Snapshot) : (Data.list (Snapshot.toDataAll ss)).Readable := by
  rw [Data.Readable]
  exact Snapshot.readableItems_toDataAll ss

theorem allOfJson_render {ss : List Snapshot}
    (hnest : (Data.list (Snapshot.toDataAll ss)).nesting ≤ depthLimit) :
    Snapshot.allOfJson (String.ofList (render (.list (Snapshot.toDataAll ss)) .json)) = .ok ss := by
  rw [Snapshot.allOfJson, String.toList_ofList, render, decode,
    Data.read_pretty_lineFeed (readable_snapshots ss)]
  simp only [Snapshot.allOfReading_reading, Snapshot.within_of_le hnest]
  rfl

/-- The text that is shown is nested as the snapshots are. -/
theorem nesting_shown {file : String} {opened : Except IoError Entry} {complaint : Complaint}
    {roots : List (Node PermissionSet ArgumentValue)}
    (hload : loadRoots file opened complaint = .ok roots) (permissions : Option String) :
    (Json.read ((Command.tree file permissions .json).run opened complaint).stdout.toList).1.nesting
      = (Data.list (Snapshot.toDataAll (snapshots roots permissions))).nesting := by
  have hreadable := readable_snapshots (snapshots roots permissions)
  rw [Command.run, tree, hload]
  dsimp only [Outcome.success]
  rw [String.toList_ofList, render, Data.read_pretty_lineFeed hreadable,
    Data.nesting_reading _ hreadable]

/-- **Trees and paths agree.** For every file and every list of permissions, `paths` lists the paths
of what `tree` shows, and whatever is said of a file that is refused, both say it. -/
theorem paths_lists_paths_of_tree (file : String) (permissions : Option String)
    (opened : Except IoError Entry) (complaint : Complaint) :
    ListsPathsOf ((Command.paths file permissions).run opened complaint)
      ((Command.tree file permissions .json).run opened complaint) := by
  cases hload : loadRoots file opened complaint with
  | error message =>
      rw [Command.run, Command.run, paths, tree, hload]
      exact ⟨rfl, rfl, fun hexit => absurd hexit Nat.one_ne_zero⟩
  | ok roots =>
      have hnesting := nesting_shown hload permissions
      rw [Command.run, tree, hload] at hnesting
      rw [Command.run, Command.run, paths, tree, hload]
      refine ⟨rfl, rfl, fun _ hnest => ⟨snapshots roots permissions, ?_, rfl⟩⟩
      exact allOfJson_render (hnesting.ge.trans hnest)

/-- The file of a definition with a second root, and a permission that is asked for below the first. -/
def guardedFile : Entry :=
  .file (Text.utf8 (String.ofList (TreeDefinition.ofRoots
    [((NodeDefinition.literal "time").withChild
        (((NodeDefinition.literal "set").withRequires "admin").withExecutes default)).withChild
      ((NodeDefinition.ofArgument "zone" .word).withExecutes default),
      (NodeDefinition.literal "ping").withExecutes default]).toData.compact))

/-- A guest is shown two snapshots, and the paths of both are listed, one to a line. -/
theorem paths_lists_paths_of_tree_guest :
    ∃ ss, Snapshot.allOfJson ((Command.tree "a.json" (some "guest") .json).run (.ok guardedFile)).stdout
        = .ok ss
      ∧ lines (Text.sort (ss.flatMap Snapshot.paths)) = "ping\ntime <zone>\n" := by
  have hlists := paths_lists_paths_of_tree "a.json" (some "guest") (.ok guardedFile) .brief
  have hlisted : ((Command.paths "a.json" (some "guest")).run (.ok guardedFile))
      = ⟨0, "ping\ntime <zone>\n", ""⟩ := by decide +kernel
  rw [hlisted] at hlists
  have hshallow : ((loadRoots "a.json" (.ok guardedFile) .brief).toOption.any fun roots =>
      (Data.list (Snapshot.toDataAll (snapshots roots (some "guest")))).nesting ≤ depthLimit) = true := by
    decide +kernel
  cases hload : loadRoots "a.json" (.ok guardedFile) .brief with
  | error message =>
      rw [hload] at hshallow
      cases hshallow
  | ok roots =>
      rw [hload] at hshallow
      have hnest := (nesting_shown hload (some "guest")).trans_le (of_decide_eq_true hshallow)
      obtain ⟨ss, hread, hlines⟩ := hlists.stdout rfl hnest
      exact ⟨ss, hread, hlines.symm⟩

end CommandLine

end CommandGrammar
