import CommandGrammar.Proofs.Tree.FaithfulSnapshot
import CommandGrammar.Proofs.Tree.FirstFault
import CommandGrammar.Proofs.Tree.Paths

/-!
# Listed paths are unambiguous

The label of a keyword has neither a space nor an opening bracket if some word of the input spells
it, and that of an argument starts with a bracket. If no argument has a space in its name, the labels
in a listed path are therefore told apart, and the names in them lead to the one node that the path
stands for.
-/

namespace CommandGrammar

/-! ### Names in a path -/

/-- The name in a label: that of an argument stands in brackets. -/
def nameIn : List Char → List Char
  | '<' :: rest => rest.dropLast
  | label => label

/-- The names behind that of the root, each from a piece between spaces. -/
def namesIn (text : String) : List String :=
  ((text.toList.splitOn ' ').drop 1).map fun label => String.ofList (nameIn label)

theorem nameIn_of_head? {label : List Char} (h : label.head? ≠ some '<') :
    nameIn label = label := by
  cases label with
  | nil => rfl
  | cons c rest =>
      rw [nameIn]
      rintro _ ⟨rfl, rfl⟩
      exact h rfl

namespace Node

variable {Source Value : Type}

/-! ### The nodes that run something -/

def executablePaths (t : Node Source Value) : List (List String) :=
  t.places.filter fun path => (t.at? path).any isExecutable

theorem mem_executablePaths_iff {t : Node Source Value} (ht : t.NamesDistinct)
    {path : List String} :
    path ∈ t.executablePaths ↔ ∃ n, t.at? path = some n ∧ n.isExecutable = true := by
  rw [executablePaths, List.mem_filter, mem_places_iff ht, Option.any_eq_true]
  constructor
  · exact And.right
  · rintro ⟨n, hat, hexec⟩
    exact ⟨⟨n, hat⟩, n, hat, hexec⟩

/-- A path of a node that runs something is that of the root or leads below a child. -/
theorem executablePaths_node {h : NodeHeader Source Value} {children : List (Node Source Value)}
    (ht : NamesDistinct ⟨h, children⟩) :
    executablePaths ⟨h, children⟩ = (if h.executor.isSome then [[]] else [])
      ++ children.flatMap fun c => c.executablePaths.map (c.name :: ·) := by
  have hbelow : ∀ c ∈ children, (c.places.map (c.name :: ·)).filter
      (fun path => (at? ⟨h, children⟩ path).any isExecutable)
        = c.executablePaths.map (c.name :: ·) := by
    intro c hc
    have hchild : child? ⟨h, children⟩ c.name = some c := ht.child?_eq_some_iff.mpr ⟨hc, rfl⟩
    rw [List.filter_map, executablePaths]
    simp only [Function.comp_def, at?_cons_of_child? hchild]
  have hroot : (at? ⟨h, children⟩ []).any isExecutable = h.executor.isSome := rfl
  rw [executablePaths, places, placesAll_eq_flatMap, List.filter_cons, List.filter_flatMap,
    List.flatMap_congr hbelow, hroot]
  split <;> rfl

/-- The path of a node as a snapshot lists it. -/
def pathText (t : Node Source Value) (path : List String) : String :=
  String.ofList (Snapshot.joinLabels (t.labelsAlong path))

end Node

namespace Snapshot

variable {Source Value : Type}

theorem labelPaths_capture_perm {t : Node Source Value} (ht : t.NamesDistinct)
    (above : List (List Char)) :
    (labelPaths above (capture t)).Perm
      (t.executablePaths.map fun path => above ++ t.labelsAlong path) := by
  induction ht generalizing above with
  | @node h children hnodup hchildren ih =>
      have ht : Node.NamesDistinct ⟨h, children⟩ := .node hnodup hchildren
      have hbelow : ∀ c ∈ children,
          (labelPaths (above ++ [(capture ⟨h, children⟩).label]) (capture c)).Perm
            (c.executablePaths.map fun path =>
              above ++ Node.labelsAlong ⟨h, children⟩ (c.name :: path)) := by
        intro c hc
        have hchild : Node.child? ⟨h, children⟩ c.name = some c :=
          ht.child?_eq_some_iff.mpr ⟨hc, rfl⟩
        simpa only [Node.labelsAlong_cons hchild, List.append_assoc, List.singleton_append]
          using ih c hc (above ++ [(capture ⟨h, children⟩).label])
      rw [Node.executablePaths_node ht, List.map_append, List.map_flatMap]
      simp only [List.map_map, Function.comp_def]
      rw [capture, labelPaths, labelPathsAll_eq_flatMap, Node.captureAll_eq_map]
      refine List.Perm.append (.of_eq ?_) ?_
      · change (if h.executor.isSome then _ else _) = _
        split <;> rfl
      · -- a snapshot sorts the children, which changes no more than their order
        have hsorted := (Text.sortByKey_perm name (children.map capture)).flatMap_right
          (labelPaths (above ++ [(capture ⟨h, children⟩).label]))
        rw [List.flatMap_map] at hsorted
        exact hsorted.trans (List.Perm.flatMap_left children hbelow)

theorem paths_capture_perm {t : Node Source Value} (ht : t.NamesDistinct) :
    (capture t).paths.Perm (t.executablePaths.map t.pathText) := by
  have htexts : (texts (labelPaths [] (capture t))).Perm
      (texts (t.executablePaths.map t.labelsAlong)) := (labelPaths_capture_perm ht []).map _
  rw [texts, texts, List.map_map] at htexts
  exact (capture t).paths_perm_texts.trans htexts

theorem mem_paths_capture_iff {t : Node Source Value} (ht : t.NamesDistinct) {text : String} :
    text ∈ (capture t).paths
      ↔ ∃ path, (∃ n, t.at? path = some n ∧ n.isExecutable = true) ∧ t.pathText path = text := by
  rw [(paths_capture_perm ht).mem_iff, List.mem_map]
  simp only [Node.mem_executablePaths_iff ht]

end Snapshot

namespace Node

variable {Source Value : Type}

/-! ### Legible labels -/

/-- A label that is told apart from others, and from which the name can be read. -/
structure Legible (n : Node Source Value) : Prop where
  undivided : ' ' ∉ (Snapshot.capture n).label
  named : String.ofList (nameIn (Snapshot.capture n).label) = n.name

theorem label_capture (n : Node Source Value) : (Snapshot.capture n).label
    = if n.isLiteral then n.name.toList else '<' :: n.name.toList ++ ['>'] := by
  obtain ⟨⟨_, kind, _, _⟩, _⟩ := n
  cases kind <;> rfl

theorem legible_of_works {n : Node Source Value} (hworks : n.Works)
    (hargument : n.isArgument = true → ' ' ∉ n.name.toList) : n.Legible := by
  cases hliteral : n.isLiteral with
  | true =>
      have hword := hworks.spellable hliteral
      have hspace : ' ' ∉ n.name.toList := fun hmem => absurd (hword ' ' hmem) (by decide)
      have hbracket : n.name.toList.head? ≠ some '<' := fun hhead =>
        absurd (hword '<' (List.mem_of_mem_head? hhead)) (by decide)
      constructor
      · rwa [label_capture, hliteral, if_pos rfl]
      · rw [label_capture, hliteral, if_pos rfl, nameIn_of_head? hbracket,
          String.ofList_toList]
  | false =>
      have hspace := hargument (by rw [isArgument, hliteral]; rfl)
      constructor
      · rw [label_capture, hliteral]
        simpa using hspace
      · rw [label_capture, hliteral, if_neg Bool.false_ne_true, List.cons_append, nameIn,
          List.dropLast_concat, String.ofList_toList]

/-- All labels of the tree are legible. -/
def AllLegible (t : Node Source Value) : Prop := ∀ path n, t.at? path = some n → n.Legible

section AllLegible

variable {t c n : Node Source Value} {path : List String}

theorem AllLegible.here (ht : t.AllLegible) : t.Legible := ht [] t rfl

theorem AllLegible.of_child? {name : String} (ht : t.AllLegible) (hc : t.child? name = some c) :
    c.AllLegible := by
  intro way m hat
  exact ht (name :: way) m ((at?_cons_of_child? hc way).trans hat)

theorem space_notMem_of_mem_labelsAlong (ht : t.AllLegible) (hat : t.at? path = some n) :
    ∀ label ∈ t.labelsAlong path, ' ' ∉ label := by
  induction path generalizing t with
  | nil =>
      rw [labelsAlong_nil]
      exact List.forall_mem_singleton.mpr ht.here.undivided
  | cons name path ih =>
      obtain ⟨c, hc, hat⟩ := Option.bind_eq_some_iff.mp hat
      rw [labelsAlong_cons hc, List.forall_mem_cons]
      exact ⟨ht.here.undivided, ih (ht.of_child? hc) hat⟩

theorem map_nameIn_labelsAlong (ht : t.AllLegible) (hat : t.at? path = some n) :
    (t.labelsAlong path).map (fun label => String.ofList (nameIn label)) = t.name :: path := by
  induction path generalizing t with
  | nil => rw [labelsAlong_nil, List.map_singleton, ht.here.named]
  | cons name path ih =>
      obtain ⟨c, hc, hat⟩ := Option.bind_eq_some_iff.mp hat
      rw [labelsAlong_cons hc, List.map_cons, ht.here.named, ih (ht.of_child? hc) hat,
        name_eq_of_child? hc]

/-- The names in the listed path of a node are the way to it. -/
theorem namesIn_pathText (ht : t.AllLegible) (hat : t.at? path = some n) :
    namesIn (t.pathText path) = path := by
  have hnames := map_nameIn_labelsAlong ht hat
  have hne : t.labelsAlong path ≠ [] := by
    intro hnil
    rw [hnil] at hnames
    cases hnames
  rw [namesIn, pathText, String.toList_ofList, Snapshot.joinLabels,
    List.splitOn_intercalate ' ' (space_notMem_of_mem_labelsAlong ht hat) hne, List.map_drop,
    hnames]
  rfl

theorem injOn_pathText (ht : t.AllLegible) :
    Set.InjOn t.pathText {path | ∃ n, t.at? path = some n ∧ n.isExecutable = true} := by
  rintro path ⟨n, hat, -⟩ path' ⟨n', hat', -⟩ heq
  rw [← namesIn_pathText ht hat, heq, namesIn_pathText ht hat']

theorem paths_capture_ascending (hdistinct : t.NamesDistinct) (ht : t.AllLegible) :
    ((Snapshot.capture t).paths.map Text.utf8).Pairwise (· < ·) := by
  have hnodup : (Snapshot.capture t).paths.Nodup := by
    rw [(Snapshot.paths_capture_perm hdistinct).nodup_iff]
    refine ((nodup_places hdistinct).filter _).map_on fun path hpath path' hpath' => ?_
    exact injOn_pathText ht ((mem_executablePaths_iff hdistinct).mp hpath)
      ((mem_executablePaths_iff hdistinct).mp hpath')
  have hascending : (Snapshot.capture t).paths.Pairwise (· < ·) :=
    ((Snapshot.capture t).paths_sorted.and hnodup).imp fun ⟨hle, hne⟩ => lt_of_le_of_ne hle hne
  exact List.pairwise_map.mpr (hascending.imp Text.utf8_lt_of_lt)

/-- The check of the whole tree makes the keywords legible, and no space the arguments. -/
theorem allLegible_of_fault?_eq_none (hdistinct : t.NamesDistinct) (hfault : t.fault? = none)
    (hspaces : ∀ path n, t.at? path = some n → n.isArgument = true → ' ' ∉ n.name.toList) :
    t.AllLegible := by
  have hworks := (faultBelow?_eq_none_iff hdistinct []).mp hfault
  intro path n hat
  exact legible_of_works (hworks path n hat) (hspaces path n hat)

end AllLegible

/-- **Listed paths are unambiguous.** Take a tree without a fault in which no argument has a space
in its name. Its snapshot lists paths that ascend strictly by their bytes. The names in a listed path,
which stand between spaces behind the label of the root, lead to a node that runs something and whose
path it is, in the tree and in the snapshot. Every node that runs something is reached in this way,
so that different ones have different paths. -/
theorem paths_unambiguous (t : Node Source Value) (ht : t.NamesDistinct) (hfault : t.fault? = none)
    (hspaces : ∀ path n, t.at? path = some n → n.isArgument = true → ' ' ∉ n.name.toList) :
    ((Snapshot.capture t).paths.map Text.utf8).Pairwise (· < ·)
    ∧ (∀ text ∈ (Snapshot.capture t).paths, ∃ n, t.at? (namesIn text) = some n
      ∧ n.isExecutable = true ∧ t.pathText (namesIn text) = text
      ∧ (Snapshot.capture t).find? (namesIn text) = some (Snapshot.capture n))
    ∧ (∀ path n, t.at? path = some n → n.isExecutable = true →
      t.pathText path ∈ (Snapshot.capture t).paths ∧ namesIn (t.pathText path) = path)
    ∧ Set.InjOn t.pathText {path | ∃ n, t.at? path = some n ∧ n.isExecutable = true} := by
  have hlegible := allLegible_of_fault?_eq_none ht hfault hspaces
  refine ⟨paths_capture_ascending ht hlegible, ?_, ?_, injOn_pathText hlegible⟩
  · intro text htext
    obtain ⟨path, ⟨n, hat, hexec⟩, rfl⟩ := (Snapshot.mem_paths_capture_iff ht).mp htext
    rw [namesIn_pathText hlegible hat, Snapshot.find?_capture ht, hat]
    exact ⟨n, rfl, hexec, rfl, rfl⟩
  · intro path n hat hexec
    refine ⟨?_, namesIn_pathText hlegible hat⟩
    exact (Snapshot.mem_paths_capture_iff ht).mpr ⟨path, ⟨n, hat, hexec⟩, rfl⟩

/-- An argument whose name has brackets of its own, beside a keyword of the name in them and over
another one of that name. -/
def bracketedArgument : Node Unit ArgumentValue :=
  ⟨.literal "set" true,
    [⟨(NodeHeader.argument "<x>" Parser.word).executes fun _ => .ok default,
        [⟨(NodeHeader.literal "x" true).executes fun _ => .ok default, []⟩]⟩,
      ⟨(NodeHeader.literal "x" true).executes fun _ => .ok default, []⟩]⟩

theorem namesDistinct_bracketedArgument : bracketedArgument.NamesDistinct := by
  refine .node (by decide) (List.forall_mem_cons.mpr ⟨?_, List.forall_mem_singleton.mpr ?_⟩)
  · exact .node (by decide) (List.forall_mem_singleton.mpr (namesDistinct_leaf _))
  · exact namesDistinct_leaf _

theorem spaceless_bracketedArgument : bracketedArgument.Everywhere fun h children =>
    isArgument ⟨h, children⟩ = true → ' ' ∉ (name ⟨h, children⟩).toList := by
  refine .node (by decide) (List.forall_mem_cons.mpr ⟨?_, List.forall_mem_singleton.mpr ?_⟩)
  · refine .node (by decide) (List.forall_mem_singleton.mpr ?_)
    exact .node (by decide) (List.forall_mem_nil _)
  · exact .node (by decide) (List.forall_mem_nil _)

theorem paths_unambiguous_bracketedArgument :
    bracketedArgument.fault? = none
      ∧ (Snapshot.capture bracketedArgument).paths = ["set <<x>>", "set <<x>> x", "set x"]
      ∧ namesIn "set <<x>> x" = ["<x>", "x"]
      ∧ ∃ n, bracketedArgument.at? ["<x>", "x"] = some n
        ∧ (Snapshot.capture bracketedArgument).find? ["<x>", "x"] = some (Snapshot.capture n) := by
  have hpaths : (Snapshot.capture bracketedArgument).paths
      = ["set <<x>>", "set <<x>> x", "set x"] := by decide +kernel
  have hnames : namesIn "set <<x>> x" = ["<x>", "x"] := by decide +kernel
  obtain ⟨-, hdecode, -⟩ := paths_unambiguous bracketedArgument namesDistinct_bracketedArgument
    (by decide +kernel) fun path n hat => (spaceless_bracketedArgument.of_at? hat).here
  obtain ⟨n, hat, -, -, hfind⟩ := hdecode "set <<x>> x" (by rw [hpaths]; decide)
  rw [hnames] at hat hfind
  exact ⟨by decide +kernel, hpaths, hnames, n, hat, hfind⟩

end Node

end CommandGrammar
