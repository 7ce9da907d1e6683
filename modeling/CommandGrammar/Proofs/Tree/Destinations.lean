import CommandGrammar.Proofs.Tree.FirstFault
import CommandGrammar.Proofs.Tree.Paths

/-!
# Every branch leads somewhere

Validation looks at each node alone and asks only that a branch does not end without an executor. In
a tree without a fault some executor is therefore found below every node, so that the way to the node
is the start of a path that the snapshot of the tree lists.
-/

namespace CommandGrammar.Node

variable {Source Value : Type}

/-- A first child is found by its name, whatever the names of the others. -/
theorem child?_head (h : NodeHeader Source Value) (c : Node Source Value)
    (cs : List (Node Source Value)) : child? ⟨h, c :: cs⟩ c.name = some c := by
  rw [child?]
  exact List.find?_cons_of_pos (beq_self_eq_true c.name)

theorem exists_executable_below {n : Node Source Value}
    (hn : n.Everywhere fun h children => Works ⟨h, children⟩) :
    ∃ below m, n.at? below = some m ∧ m.isExecutable = true := by
  induction hn with
  | @node h children hworks _ ih =>
      cases children with
      | nil => exact ⟨[], _, rfl, hworks.leadsOn rfl⟩
      | cons c children =>
          obtain ⟨below, m, hat, hexec⟩ := ih c List.mem_cons_self
          refine ⟨c.name :: below, m, ?_, hexec⟩
          rw [at?_cons_of_child? (child?_head h c children), hat]

/-- **In a tree without a fault every node leads somewhere.** At or below it there is a node that runs
something. The snapshot lists a path whose labels start with those on the way to the node, and so it
lists at least one. The roots that are built of a definition are such trees. -/
theorem leads_somewhere :
    (∀ {Source Value : Type} (t : Node Source Value), t.fault? = none →
      (∀ path n, t.at? path = some n → ∃ below m, n.at? below = some m ∧ m.isExecutable = true
        ∧ t.labelsAlong path <+: t.labelsAlong (path ++ below)
        ∧ t.labelsAlong (path ++ below) ∈ (Snapshot.capture t).labelPaths []
        ∧ String.ofList (Snapshot.joinLabels (t.labelsAlong (path ++ below)))
          ∈ (Snapshot.capture t).paths)
      ∧ (Snapshot.capture t).paths ≠ [])
    ∧ ∀ {Source : Type} [PermissionSource Source] (d : TreeDefinition)
      (nodes : List (Node Source ArgumentValue)), d.buildRoots = .ok nodes →
      ∀ t ∈ nodes, t.fault? = none := by
  constructor
  · intro Source Value t ht
    rw [fault?, faultBelow?_eq_none_iff_everywhere] at ht
    have hleads : ∀ path n, t.at? path = some n → ∃ below m, n.at? below = some m
        ∧ m.isExecutable = true
        ∧ t.labelsAlong (path ++ below) ∈ (Snapshot.capture t).labelPaths [] := by
      intro path n hat
      obtain ⟨below, m, hbelow, hexec⟩ := exists_executable_below (ht.of_at? hat)
      refine ⟨below, m, hbelow, hexec, ?_⟩
      exact Snapshot.labelsAlong_mem_labelPaths ((at?_append hat below).trans hbelow) hexec []
    constructor
    · intro path n hat
      obtain ⟨below, m, hbelow, hexec, hlisted⟩ := hleads path n hat
      refine ⟨below, m, hbelow, hexec, t.labelsAlong_prefix path below, hlisted, ?_⟩
      exact Snapshot.mem_paths_iff.mpr ⟨_, hlisted, rfl⟩
    · obtain ⟨below, m, -, -, hlisted⟩ := hleads [] t rfl
      exact List.ne_nil_of_mem (Snapshot.mem_paths_iff.mpr ⟨_, hlisted, rfl⟩)
  · intro Source _ d nodes hbuild t ht
    obtain ⟨hroots, rfl⟩ := TreeDefinition.buildRoots_eq_ok_iff.mp hbuild
    obtain ⟨root, hroot, rfl⟩ := List.mem_map.mp ht
    exact hroots root hroot

/-- A keyword that runs nothing over one that does and one over an argument that does. -/
def settableClock : Node Unit ArgumentValue :=
  ⟨.literal "time" true,
    [⟨(NodeHeader.literal "query" true).executes fun _ => .ok default, []⟩,
      ⟨.literal "set" true,
        [⟨(NodeHeader.argument "ticks" Parser.word).executes fun _ => .ok default, []⟩]⟩]⟩

/-- Below `time set` there is an executor, and a path is listed that starts with these two labels. -/
theorem leads_somewhere_settableClock :
    settableClock.fault? = none ∧ (Snapshot.capture settableClock).paths ≠ []
      ∧ ∃ labels, ["time".toList, "set".toList] <+: labels
        ∧ String.ofList (Snapshot.joinLabels labels) ∈ (Snapshot.capture settableClock).paths := by
  obtain ⟨hbelow, hlisted⟩ := leads_somewhere.1 settableClock rfl
  refine ⟨rfl, hlisted, ?_⟩
  obtain ⟨below, -, -, -, hprefix, -, hmem⟩ := hbelow ["set"] _ rfl
  exact ⟨_, hprefix, hmem⟩

end CommandGrammar.Node
