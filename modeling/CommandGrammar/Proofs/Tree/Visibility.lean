import CommandGrammar.Proofs.Tree.Enumeration
import CommandGrammar.Proofs.Tree.Merging

/-!
# What a source can see

A node shows in the snapshot for a source exactly if the source can use it and every node above it.
So the snapshot is the full one of what is left of the tree without the nodes that the source cannot
use, each taken out with everything below it.
-/

namespace CommandGrammar

namespace Node

variable {Source Value : Type} {source : Source}

/-- No requirement turns the source away. -/
def Usable (source : Source) (n : Node Source Value) : Prop :=
  ∀ requirement, n.header.requirement = some requirement → requirement source = true

theorem canUse_iff {n : Node Source Value} : n.canUse source = true ↔ n.Usable source := by
  rw [canUse, Usable]
  cases n.header.requirement with
  | none => simp
  | some requirement => simp

/-- Every node on the way to the end of the path can be used, the root and the end included. -/
def UsableAlong (source : Source) (t : Node Source Value) (path : List String) : Prop :=
  ∀ way, way <+: path → ∀ n, t.at? way = some n → n.Usable source

theorem usableAlong_nil_iff {t : Node Source Value} : t.UsableAlong source [] ↔ t.Usable source := by
  constructor
  · intro h
    exact h [] (List.prefix_refl []) t rfl
  · intro h way hway n hat
    obtain rfl := List.prefix_nil.mp hway
    exact Option.some.inj hat ▸ h

theorem usableAlong_cons_iff {t c : Node Source Value} {name : String} {path : List String}
    (hc : t.child? name = some c) :
    t.UsableAlong source (name :: path) ↔ t.Usable source ∧ c.UsableAlong source path := by
  constructor
  · intro h
    refine ⟨h [] (List.nil_prefix) t rfl, fun way hway n hat => ?_⟩
    refine h (name :: way) (List.cons_prefix_cons.mpr ⟨rfl, hway⟩) n ?_
    rwa [at?_cons_of_child? hc]
  · rintro ⟨hroot, hbelow⟩ way hway n hat
    cases way with
    | nil => exact Option.some.inj hat ▸ hroot
    | cons first way =>
        obtain ⟨rfl, hrest⟩ := List.cons_prefix_cons.mp hway
        rw [at?_cons_of_child? hc] at hat
        exact hbelow way hrest n hat

mutual

/-- What is left of a tree without the nodes that a source cannot use. -/
def usablePart? (source : Source) : Node Source Value → Option (Node Source Value)
  | ⟨h, children⟩ =>
    if canUse ⟨h, children⟩ source then some ⟨h, usableParts source children⟩ else none

def usableParts (source : Source) : List (Node Source Value) → List (Node Source Value)
  | [] => []
  | c :: children => (c.usablePart? source).toList ++ usableParts source children

end

end Node

namespace Snapshot

variable {Source Value : Type} {source : Source}

/-- The snapshot tells of the node all that it can tell without its children. -/
structure Shows (s : Snapshot) (n : Node Source Value) : Prop where
  name : s.name = n.name
  kind : s.header.kind = if n.isLiteral then .literal else .argument
  caseSensitive : s.header.caseSensitive = n.caseSensitive
  valueType : s.header.valueType = n.parser.map Parser.typeName
  executable : s.header.executable = n.isExecutable
  restricted : s.header.restricted = n.isRestricted

theorem shows_of_header_eq {s : Snapshot} {n : Node Source Value}
    (h : s.header = headerOf n.header) : s.Shows n := by
  obtain ⟨header, children⟩ := s
  obtain rfl : header = headerOf n.header := h
  obtain ⟨⟨name, kind, requirement, executor⟩, below⟩ := n
  cases kind with
  | literal caseSensitive => exact ⟨rfl, rfl, rfl, rfl, rfl, rfl⟩
  | argument parser => exact ⟨rfl, rfl, rfl, rfl, rfl, rfl⟩

/-! ### One step into the visible part -/

theorem captureVisible_eq_some_iff {n : Node Source Value} {v : Snapshot} :
    captureVisible source n = some v ↔ n.Usable source
      ∧ v = ⟨headerOf n.header, Text.sortByKey name (n.children.filterMap (captureVisible source))⟩ := by
  obtain ⟨h, children⟩ := n
  rw [captureVisible, Node.captureAllVisible_eq_filterMap, ← Node.canUse_iff]
  split
  · rename_i huse
    simp [huse, eq_comm]
  · rename_i huse
    simp [huse]

theorem isSome_captureVisible_iff {n : Node Source Value} :
    (captureVisible source n).isSome = true ↔ n.Usable source := by
  rw [Option.isSome_iff_exists]
  simp only [captureVisible_eq_some_iff, exists_and_left, exists_eq, and_true]

/-- A child that shows is what shows of the child. -/
theorem child?_of_captureVisible {n : Node Source Value} (hn : n.NamesDistinct) {v : Snapshot}
    (hv : captureVisible source n = some v) (childName : String) :
    v.child? childName = (n.child? childName).bind (captureVisible source) := by
  obtain ⟨-, rfl⟩ := captureVisible_eq_some_iff.mp hv
  have hnodup : ((n.children.filterMap (captureVisible source)).map name).Nodup :=
    hn.nodup.sublist (Node.captureAllVisible_names_sublist source n.children)
  apply Option.ext
  intro s
  rw [child?, Text.find?_sortByKey hnodup, Text.find?_key_eq_some_iff hnodup, List.mem_filterMap,
    Option.bind_eq_some_iff]
  constructor
  · rintro ⟨⟨c, hmem, hc⟩, hname⟩
    exact ⟨c, hn.child?_eq_some_iff.mpr ⟨hmem, (Node.name_of_captureVisible hc).symm.trans hname⟩, hc⟩
  · rintro ⟨c, hchild, hc⟩
    obtain ⟨hmem, hname⟩ := hn.child?_eq_some_iff.mp hchild
    exact ⟨⟨c, hmem, hc⟩, (Node.name_of_captureVisible hc).trans hname⟩

/-! ### Paths into the visible part -/

/-- What is found at a path is what shows of the node there, once the way to it can be used. -/
theorem find?_captureVisible_eq_some_iff {t : Node Source Value} (ht : t.NamesDistinct)
    {path : List String} {s : Snapshot} :
    ((captureVisible source t).bind fun v => v.find? path) = some s
      ↔ ∃ n, t.at? path = some n ∧ t.UsableAlong source path ∧ captureVisible source n = some s := by
  induction path generalizing t with
  | nil =>
      have hroot : ((captureVisible source t).bind fun v => v.find? []) = captureVisible source t := by
        cases captureVisible source t <;> rfl
      rw [hroot, Node.usableAlong_nil_iff]
      constructor
      · intro h
        exact ⟨t, rfl, (captureVisible_eq_some_iff.mp h).1, h⟩
      · rintro ⟨n, hat, -, h⟩
        obtain rfl := Option.some.inj hat
        exact h
  | cons childName path ih =>
      by_cases huse : t.Usable source
      · obtain ⟨v, hv⟩ := Option.isSome_iff_exists.mp (isSome_captureVisible_iff.mpr huse)
        rw [hv, Option.bind_some, find?, child?_of_captureVisible ht hv, Node.at?_cons]
        cases hc : t.child? childName with
        | none => simp
        | some c =>
            have hdistinct := ht.of_mem (Node.mem_children_of_child? hc)
            rw [Option.bind_some, ih hdistinct, Option.bind_some, Node.usableAlong_cons_iff hc]
            simp only [huse, true_and]
      · constructor
        · intro h
          obtain ⟨v, hv, -⟩ := Option.bind_eq_some_iff.mp h
          exact absurd (captureVisible_eq_some_iff.mp hv).1 huse
        · rintro ⟨n, -, halong, -⟩
          exact absurd (halong [] List.nil_prefix t rfl) huse

theorem isSome_captureVisible_of_usableAlong {t n : Node Source Value} {path : List String}
    (halong : t.UsableAlong source path) (hat : t.at? path = some n) :
    ∃ s, captureVisible source n = some s :=
  Option.isSome_iff_exists.mp
    (isSome_captureVisible_iff.mpr (halong path (List.prefix_refl path) n hat))

/-! ### Taking nodes out of the tree -/

mutual

theorem captureVisible_eq_map_usablePart? (source : Source) :
    ∀ t : Node Source Value, captureVisible source t = (t.usablePart? source).map capture
  | ⟨h, children⟩ => by
    rw [captureVisible, Node.usablePart?]
    split
    · rw [captureAllVisible_eq_captureAll, Option.map_some, capture]
    · rfl

theorem captureAllVisible_eq_captureAll (source : Source) :
    ∀ cs : List (Node Source Value),
      captureAllVisible source cs = captureAll (Node.usableParts source cs)
  | [] => rfl
  | c :: cs => by
    rw [captureAllVisible, Node.usableParts, captureVisible_eq_map_usablePart? source c,
      captureAllVisible_eq_captureAll source cs]
    cases c.usablePart? source with
    | none => rfl
    | some part => rfl

end

/-- **Visibility is exact.** At a path a source sees something exactly if the tree has a node there
and the source can use it and all above it; it then sees that node. The snapshot is the full one of
the tree without the nodes that the source cannot use. -/
theorem captureVisible_exact {Source Value : Type} (source : Source) (t : Node Source Value) :
    (t.NamesDistinct → ∀ path,
      ((∃ v s, captureVisible source t = some v ∧ v.find? path = some s)
        ↔ ∃ n, t.at? path = some n ∧ t.UsableAlong source path)
      ∧ ∀ v s, captureVisible source t = some v → v.find? path = some s →
        ∃ n, t.at? path = some n ∧ s.Shows n)
    ∧ captureVisible source t = (t.usablePart? source).map capture := by
  refine ⟨fun ht path => ⟨⟨?_, ?_⟩, ?_⟩, captureVisible_eq_map_usablePart? source t⟩
  · rintro ⟨v, s, hv, hs⟩
    obtain ⟨n, hat, halong, -⟩ := (find?_captureVisible_eq_some_iff ht).mp
      (Option.bind_eq_some_iff.mpr ⟨v, hv, hs⟩)
    exact ⟨n, hat, halong⟩
  · rintro ⟨n, hat, halong⟩
    obtain ⟨s, hs⟩ := isSome_captureVisible_of_usableAlong halong hat
    obtain ⟨v, hv, hfind⟩ := Option.bind_eq_some_iff.mp
      ((find?_captureVisible_eq_some_iff ht).mpr ⟨n, hat, halong, hs⟩)
    exact ⟨v, s, hv, hfind⟩
  · intro v s hv hs
    obtain ⟨n, hat, -, hcapture⟩ := (find?_captureVisible_eq_some_iff ht).mp
      (Option.bind_eq_some_iff.mpr ⟨v, hv, hs⟩)
    obtain ⟨-, rfl⟩ := captureVisible_eq_some_iff.mp hcapture
    exact ⟨n, hat, shows_of_header_eq rfl⟩

/-- A keyword over one that only some may use and that leads on, and one that is open to all. -/
def gatedBranch : Node Bool ArgumentValue :=
  ⟨.literal "root" true,
    [⟨(NodeHeader.literal "gate" true).requires id, [⟨.literal "inner" true, []⟩]⟩,
      ⟨.literal "open" true, []⟩]⟩

theorem namesDistinct_gatedBranch : gatedBranch.NamesDistinct := by
  refine .node (by decide) fun c hc => ?_
  rcases List.mem_cons.mp hc with rfl | hc
  · refine .node (by decide) fun c hc => ?_
    obtain rfl := List.mem_singleton.mp hc
    exact Node.namesDistinct_leaf _
  · obtain rfl := List.mem_singleton.mp hc
    exact Node.namesDistinct_leaf _

/-- Who may not pass the gate does not see the open keyword behind it, but sees the one beside it. -/
theorem captureVisible_exact_gatedBranch :
    gatedBranch.NamesDistinct
      ∧ (¬ ∃ v s, captureVisible false gatedBranch = some v ∧ v.find? ["gate", "inner"] = some s)
      ∧ ∃ v s, captureVisible false gatedBranch = some v ∧ v.find? ["open"] = some s := by
  have hexact := (captureVisible_exact false gatedBranch).1 namesDistinct_gatedBranch
  have hopen : ∀ (name : String) (children : List (Node Bool ArgumentValue)),
      Node.Usable false ⟨.literal name true, children⟩ := by
    intro name children requirement h
    cases h
  refine ⟨namesDistinct_gatedBranch, fun hseen => ?_, ?_⟩
  · obtain ⟨n, -, halong⟩ := (hexact ["gate", "inner"]).1.mp hseen
    have hgate := halong ["gate"] (by decide) _ rfl id rfl
    cases hgate
  · refine (hexact ["open"]).1.mpr ⟨_, rfl, ?_⟩
    exact (Node.usableAlong_cons_iff rfl).mpr ⟨hopen _ _, Node.usableAlong_nil_iff.mpr (hopen _ _)⟩

end Snapshot

end CommandGrammar
