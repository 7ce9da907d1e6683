import CommandGrammar.Proofs.Tree.Keyed
import CommandGrammar.Proofs.Tree.UnambiguousPaths
import CommandGrammar.Proofs.Tree.Visibility

/-!
# What is seen of children under keys

A tree is searched by keys. Snapshots and validation take the children out of the map and go by
their names. Snapshots have what the search finds if every child stands under its own name, and only
then.
-/

namespace CommandGrammar

namespace KeyedNode

variable {Source Value : Type}

mutual

def capture : KeyedNode Source Value → Snapshot
  | ⟨h, children⟩ => ⟨Snapshot.headerOf h, Text.sortByKey Snapshot.name (captureAll children)⟩

def captureAll : List (String × KeyedNode Source Value) → List Snapshot
  | [] => []
  | (_, c) :: entries => c.capture :: captureAll entries

end

def canUse (k : KeyedNode Source Value) (source : Source) : Bool :=
  match k.header.requirement with
  | none => true
  | some requirement => requirement source

mutual

def captureVisible (source : Source) : KeyedNode Source Value → Option Snapshot
  | ⟨h, children⟩ =>
    if canUse ⟨h, children⟩ source then
      some ⟨Snapshot.headerOf h, Text.sortByKey Snapshot.name (captureAllVisible source children)⟩
    else none

def captureAllVisible (source : Source) : List (String × KeyedNode Source Value) → List Snapshot
  | [] => []
  | (_, c) :: entries =>
    match c.captureVisible source with
    | some s => s :: captureAllVisible source entries
    | none => captureAllVisible source entries

end

def ownFault? (above : List String) (k : KeyedNode Source Value) : Option TreeFault :=
  if Text.trim k.name.toList = [] then some (.emptyName above)
  else if k.header.kind.isLiteral && !k.name.toList.all Reader.isWordChar then
    some (.unreadableLiteral (above ++ [k.name]))
  else if k.children.isEmpty && !k.header.executor.isSome then some (.deadEnd (above ++ [k.name]))
  else none

mutual

def faultBelow? (above : List String) : KeyedNode Source Value → Option TreeFault
  | ⟨h, children⟩ =>
    match ownFault? above ⟨h, children⟩ with
    | some fault => some fault
    | none =>
      (Text.sortByKey Prod.fst (faultsBelow (above ++ [h.name]) children)).findSome? Prod.snd

def faultsBelow (above : List String) :
    List (String × KeyedNode Source Value) → List (String × Option TreeFault)
  | [] => []
  | (_, c) :: entries => (c.name, c.faultBelow? above) :: faultsBelow above entries

end

def fault? (root : KeyedNode Source Value) : Option TreeFault := root.faultBelow? []

end KeyedNode

/-! ### Trees of named children -/

namespace Node

variable {Source Value : Type}

mutual

theorem capture_keyed : ∀ n : Node Source Value, n.keyed.capture = Snapshot.capture n
  | ⟨h, children⟩ => by
    rw [keyed, KeyedNode.capture, Snapshot.capture, captureAll_keyedAll children]

theorem captureAll_keyedAll : ∀ cs : List (Node Source Value),
    KeyedNode.captureAll (keyedAll cs) = Snapshot.captureAll cs
  | [] => rfl
  | c :: cs => by
    rw [keyedAll, KeyedNode.captureAll, Snapshot.captureAll, capture_keyed c,
      captureAll_keyedAll cs]

end

theorem canUse_keyed (n : Node Source Value) (source : Source) :
    n.keyed.canUse source = n.canUse source := by
  rw [KeyedNode.canUse, header_keyed]
  rfl

mutual

theorem captureVisible_keyed (source : Source) : ∀ n : Node Source Value,
    n.keyed.captureVisible source = Snapshot.captureVisible source n
  | ⟨h, children⟩ => by
    have huse := canUse_keyed ⟨h, children⟩ source
    rw [keyed] at huse ⊢
    rw [KeyedNode.captureVisible, Snapshot.captureVisible, huse,
      captureAllVisible_keyedAll source children]

theorem captureAllVisible_keyedAll (source : Source) : ∀ cs : List (Node Source Value),
    KeyedNode.captureAllVisible source (keyedAll cs) = Snapshot.captureAllVisible source cs
  | [] => rfl
  | c :: cs => by
    rw [keyedAll, KeyedNode.captureAllVisible, captureVisible_keyed source c,
      captureAllVisible_keyedAll source cs]
    rfl

end

theorem ownFault?_keyed (n : Node Source Value) (above : List String) :
    n.keyed.ownFault? above = n.ownFault? above := by
  have hempty : n.keyed.children.isEmpty = n.children.isEmpty := by
    rw [children_keyed, keyedAll_eq_map, List.isEmpty_map]
  rw [KeyedNode.ownFault?, name_keyed, header_keyed, hempty, ownFault?]
  rfl

mutual

theorem faultBelow?_keyed : ∀ (n : Node Source Value) (above : List String),
    n.keyed.faultBelow? above = n.faultBelow? above
  | ⟨h, children⟩, above => by
    have hown := ownFault?_keyed ⟨h, children⟩ above
    rw [keyed] at hown ⊢
    rw [KeyedNode.faultBelow?, hown, faultsBelow_keyedAll children]
    rfl

theorem faultsBelow_keyedAll : ∀ (cs : List (Node Source Value)) (above : List String),
    KeyedNode.faultsBelow above (keyedAll cs) = faultsBelow above cs
  | [], _ => rfl
  | c :: cs, above => by
    rw [keyedAll, KeyedNode.faultsBelow, faultsBelow, name_keyed, faultBelow?_keyed c,
      faultsBelow_keyedAll cs]

end

end Node

namespace KeyedNode

variable {Source Value : Type} {k : KeyedNode Source Value}

/-- A tree with every child under its own name is one of `Node`. Hence all that holds of the trees
there with distinct names holds of it, its search by keys being that by names. -/
theorem keptByName_iff :
    k.KeptByName ↔ ∃ n : Node Source Value, n.NamesDistinct ∧ n.keyed = k := by
  constructor
  · intro hk
    induction hk with
    | @node h children hkeys hnodup _ ih =>
        choose node hdistinct hkeyed using ih
        have hname : ∀ entry hentry, (node entry hentry).name = entry.2.name := by
          intro entry hentry
          rw [← Node.name_keyed, hkeyed]
        refine ⟨⟨h, children.pmap node fun _ hentry => hentry⟩, .node ?_ ?_, ?_⟩
        · rw [List.map_pmap]
          simpa only [hname, List.pmap_eq_map] using hnodup
        · intro n hn
          obtain ⟨entry, hentry, rfl⟩ := List.mem_pmap.mp hn
          exact hdistinct entry hentry
        · have hentries : ∀ entry hentry,
              ((node entry hentry).name, (node entry hentry).keyed) = entry := by
            intro entry hentry
            rw [hname, hkeyed, ← hkeys entry hentry]
          rw [Node.keyed, Node.keyedAll_eq_map, List.map_pmap]
          simp only [hentries, List.pmap_eq_map, List.map_id']
  · rintro ⟨n, hn, rfl⟩
    exact Node.keptByName_keyed hn

/-! ### What snapshots have under names -/

/-- A snapshot has at a path of names what the search by keys finds at it. -/
theorem KeptByName.find?_capture (hk : k.KeptByName) (path : List String) :
    k.capture.find? path = (k.at? path).map capture := by
  obtain ⟨n, hn, rfl⟩ := keptByName_iff.mp hk
  rw [Node.capture_keyed, Snapshot.find?_capture hn, Node.at?_keyed, Option.map_map]
  simp only [Function.comp_def, Node.capture_keyed]

/-- Everywhere in a snapshot the children are named by their keys, ascending. -/
theorem KeptByName.names_capture (hk : k.KeptByName) {path : List String}
    {m : KeyedNode Source Value} (hat : k.at? path = some m) :
    (m.capture.children.map fun s => Text.utf8 s.name).Pairwise (· < ·)
      ∧ (m.capture.children.map Snapshot.name).Perm (m.children.map Prod.fst) := by
  obtain ⟨n, hn, rfl⟩ := keptByName_iff.mp hk
  obtain ⟨p, hp, rfl⟩ := Node.at?_keyed_eq_some_iff.mp hat
  have hkeys : p.keyed.children.map Prod.fst = p.children.map Node.name := by
    rw [Node.children_keyed, Node.keyedAll_eq_map, List.map_map]
    rfl
  rw [Node.capture_keyed, hkeys]
  exact ⟨Snapshot.names_capture_ascending (hn.of_at? hp), Snapshot.names_capture_perm p⟩

theorem KeptByName.size_capture (hk : k.KeptByName) :
    k.capture.size = {path | ∃ m, k.at? path = some m}.ncard := by
  obtain ⟨n, hn, rfl⟩ := keptByName_iff.mp hk
  have hplaces : ∀ path, (∃ m, n.keyed.at? path = some m) ↔ ∃ m, n.at? path = some m := by
    intro path
    simp only [Node.at?_keyed_eq_some_iff, exists_comm, exists_and_left, exists_eq', and_true]
  rw [Node.capture_keyed, Snapshot.size_capture, Node.size_eq_ncard hn]
  simp only [hplaces]

/-! ### What a source can see under keys -/

section Visible

variable {source : Source} {path : List String}

/-- Every node on the way to the end of the path lets the source use it. -/
def UsableAlong (source : Source) (k : KeyedNode Source Value) (path : List String) : Prop :=
  ∀ way, way <+: path → ∀ m, k.at? way = some m → m.canUse source = true

theorem usableAlong_keyed {n : Node Source Value} :
    n.keyed.UsableAlong source path ↔ n.UsableAlong source path := by
  constructor
  · intro h way hway m hat
    have huse := h way hway m.keyed (Node.at?_keyed_eq_some_iff.mpr ⟨m, hat, rfl⟩)
    rwa [Node.canUse_keyed, Node.canUse_iff] at huse
  · intro h way hway m hat
    obtain ⟨p, hp, rfl⟩ := Node.at?_keyed_eq_some_iff.mp hat
    rw [Node.canUse_keyed, Node.canUse_iff]
    exact h way hway p hp

/-- At a path of keys a source sees what shows of the node there, if all on the way can be used. -/
theorem KeptByName.find?_captureVisible_eq_some_iff (hk : k.KeptByName) {s : Snapshot} :
    ((k.captureVisible source).bind fun v => v.find? path) = some s
      ↔ ∃ m, k.at? path = some m ∧ k.UsableAlong source path
        ∧ m.captureVisible source = some s := by
  obtain ⟨n, hn, rfl⟩ := keptByName_iff.mp hk
  rw [Node.captureVisible_keyed, Snapshot.find?_captureVisible_eq_some_iff hn, usableAlong_keyed]
  constructor
  · rintro ⟨m, hat, halong, hs⟩
    refine ⟨m.keyed, Node.at?_keyed_eq_some_iff.mpr ⟨m, hat, rfl⟩, halong, ?_⟩
    rwa [Node.captureVisible_keyed]
  · rintro ⟨m, hat, halong, hs⟩
    obtain ⟨p, hp, rfl⟩ := Node.at?_keyed_eq_some_iff.mp hat
    rw [Node.captureVisible_keyed] at hs
    exact ⟨p, hp, halong, hs⟩

end Visible

/-! ### Paths that are listed -/

/-- The names in a listed path are the keys that lead to the node it stands for, and every node that
runs something has one path of its own. -/
theorem KeptByName.listed_paths_unambiguous (hk : k.KeptByName) (hfault : k.fault? = none)
    (hspaces : ∀ path m, k.at? path = some m → m.header.kind.isLiteral = false →
      ' ' ∉ m.name.toList) :
    (k.capture.paths.map Text.utf8).Pairwise (· < ·)
    ∧ (∀ text ∈ k.capture.paths, ∃ m, k.at? (namesIn text) = some m
      ∧ m.header.executor.isSome = true ∧ k.capture.find? (namesIn text) = some m.capture)
    ∧ ∀ path m, k.at? path = some m → m.header.executor.isSome = true →
      ∃! text, text ∈ k.capture.paths ∧ namesIn text = path := by
  obtain ⟨n, hn, rfl⟩ := keptByName_iff.mp hk
  have hlegible : n.AllLegible := by
    refine Node.allLegible_of_fault?_eq_none hn ?_ fun path m hat hargument => ?_
    · rwa [fault?, Node.faultBelow?_keyed] at hfault
    · have hspace := hspaces path m.keyed (Node.at?_keyed_eq_some_iff.mpr ⟨m, hat, rfl⟩)
      rw [Node.header_keyed, Node.name_keyed] at hspace
      exact hspace (Bool.not_eq_true' _ |>.mp hargument)
  rw [Node.capture_keyed]
  refine ⟨Node.paths_capture_ascending hn hlegible, ?_, ?_⟩
  · intro text htext
    obtain ⟨path, ⟨m, hat, hexec⟩, rfl⟩ := (Snapshot.mem_paths_capture_iff hn).mp htext
    rw [Node.namesIn_pathText hlegible hat, Node.at?_keyed, Snapshot.find?_capture hn, hat]
    refine ⟨m.keyed, rfl, ?_, ?_⟩
    · rw [Node.header_keyed]
      exact hexec
    · rw [Node.capture_keyed, Option.map_some]
  · intro path m hat hexec
    obtain ⟨p, hp, rfl⟩ := Node.at?_keyed_eq_some_iff.mp hat
    rw [Node.header_keyed] at hexec
    refine ⟨n.pathText path, ⟨?_, Node.namesIn_pathText hlegible hp⟩, ?_⟩
    · exact (Snapshot.mem_paths_capture_iff hn).mpr ⟨path, ⟨p, hp, hexec⟩, rfl⟩
    · rintro text ⟨htext, hnames⟩
      obtain ⟨path', ⟨m, hat, -⟩, rfl⟩ := (Snapshot.mem_paths_capture_iff hn).mp htext
      rw [Node.namesIn_pathText hlegible hat] at hnames
      rw [hnames]

/-! ### Children under other names -/

/-- No key is taken twice, at any depth. -/
inductive KeysDistinct : KeyedNode Source Value → Prop where
  | node {h : NodeHeader Source Value} {children : List (String × KeyedNode Source Value)}
      (hnodup : (children.map Prod.fst).Nodup)
      (hchildren : ∀ entry ∈ children, KeysDistinct entry.2) : KeysDistinct ⟨h, children⟩

theorem lookup_of_mem {entries : List (String × KeyedNode Source Value)}
    (hnodup : (entries.map Prod.fst).Nodup) {entry : String × KeyedNode Source Value}
    (hentry : entry ∈ entries) : entries.lookup entry.1 = some entry.2 := by
  induction entries with
  | nil => cases hentry
  | cons first entries ih =>
      obtain ⟨hfirst, hrest⟩ := List.nodup_cons.mp hnodup
      rcases List.mem_cons.mp hentry with rfl | hentry
      · exact List.lookup_cons_self
      · have hne : entry.1 ≠ first.1 := fun heq => hfirst (heq ▸ List.mem_map_of_mem hentry)
        rw [List.lookup_cons, beq_false_of_ne hne]
        exact ih hrest hentry

theorem name_capture (k : KeyedNode Source Value) : k.capture.name = k.name := by
  obtain ⟨h, children⟩ := k
  rfl

/-- A map whose snapshot has at every path what is found under those keys has every child under its
own name. -/
theorem KeysDistinct.keptByName_iff (hk : k.KeysDistinct) :
    k.KeptByName ↔ ∀ path, k.capture.find? path = (k.at? path).map capture := by
  refine ⟨fun hkept => hkept.find?_capture, fun hfaithful => ?_⟩
  induction hk with
  | @node h children hnodup _ ih =>
      have hchild : ∀ entry ∈ children,
          (capture ⟨h, children⟩).child? entry.1 = some entry.2.capture := by
        intro entry hentry
        have hfind := hfaithful [entry.1]
        rw [at?, child?, lookup_of_mem hnodup hentry] at hfind
        simpa [Snapshot.find?, at?] using hfind
      have hkeys : ∀ entry ∈ children, entry.1 = entry.2.name := by
        intro entry hentry
        have hname := List.find?_some (hchild entry hentry)
        rw [name_capture] at hname
        exact (beq_iff_eq.mp hname).symm
      refine .node hkeys ?_ fun entry hentry => ih entry hentry fun path => ?_
      · rwa [← List.map_congr_left hkeys]
      · have hfind := hfaithful (entry.1 :: path)
        rwa [Snapshot.find?, hchild entry hentry, at?, child?, lookup_of_mem hnodup hentry] at hfind

/-- A keyword that was put in the place of another one and stands under its key. -/
def misplaced : KeyedNode Unit ArgumentValue :=
  ⟨.literal "r" true, [("a", ⟨.literal "b" true, []⟩)]⟩

example : (misplaced.at? ["b"]).isNone = true
    ∧ (misplaced.capture.find? ["b"]).isSome = true := by decide

end KeyedNode

end CommandGrammar
