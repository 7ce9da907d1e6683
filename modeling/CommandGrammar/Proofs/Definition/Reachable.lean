import CommandGrammar.Proofs.Definition.Compiled
import CommandGrammar.Proofs.Tree.Keyed
import CommandGrammar.Proofs.Tree.MappedValues

/-!
# Trees with keys that can be reached

Whatever is built, compiled, copied or grown, no child stands under a name that is not its own: each
of these trees is a tree of `Node` with its children put under their names.
-/

namespace CommandGrammar

variable {Source Value : Type} [PermissionSource Source]

namespace KeyedNode

mutual

/-- Compiles a definition into a tree whose arguments yield values of a wider type. -/
def compile (embed : ArgumentValue → Value) : NodeDefinition → KeyedNode Source Value
  | ⟨name, argument, caseSensitive, requires, executes, children⟩ =>
    build ((NodeDefinition.header ⟨name, argument, caseSensitive, requires, executes, []⟩).mapValue
      embed) (compileAll embed children)

def compileAll (embed : ArgumentValue → Value) : List NodeDefinition → List (KeyedNode Source Value)
  | [] => []
  | d :: ds => compile embed d :: compileAll embed ds

end

/-- The tree comes about by building nodes, compiling definitions, adding children anywhere, and
copying parts of trees. -/
inductive Reachable (embed : ArgumentValue → Value) : KeyedNode Source Value → Prop where
  | build (h : NodeHeader Source Value) {children : List (KeyedNode Source Value)}
      (hchildren : ∀ c ∈ children, Reachable embed c) : Reachable embed (build h children)
  | compile (d : NodeDefinition) : Reachable embed (compile embed d)
  | grow {t t' c : KeyedNode Source Value} {path : List String} (ht : Reachable embed t)
      (hc : Reachable embed c) (hgrow : modifyAt? (fun k => c.addTo k) path t = some t') :
      Reachable embed t'
  | part {t k : KeyedNode Source Value} {path : List String} (ht : Reachable embed t)
      (hat : t.at? path = some k) : Reachable embed k

variable (embed : ArgumentValue → Value)

mutual

theorem compile_eq_keyed : ∀ d : NodeDefinition,
    (compile embed d : KeyedNode Source Value) = (d.compile.mapValue embed).keyed
  | ⟨name, argument, caseSensitive, requires, executes, children⟩ => by
    rw [compile, NodeDefinition.compile, ← Node.build_mapValue, ← Node.build_keyed,
      compileAll_eq_keyed children, List.map_map]
    rfl

theorem compileAll_eq_keyed : ∀ ds : List NodeDefinition,
    (compileAll embed ds : List (KeyedNode Source Value))
      = (NodeDefinition.compileAll ds).map fun n => (n.mapValue embed).keyed
  | [] => by
    rw [compileAll, NodeDefinition.compileAll, List.map_nil]
  | d :: ds => by
    rw [compileAll, NodeDefinition.compileAll, List.map_cons, compile_eq_keyed d,
      compileAll_eq_keyed ds]

end

variable {embed}

theorem Reachable.exists_built {k : KeyedNode Source Value} (hk : k.Reachable embed) :
    ∃ n : Node Source Value, n.Built ∧ n.keyed = k := by
  induction hk with
  | @build h children _ ih =>
      choose node hbuilt hkeyed using ih
      have hchildren : (children.pmap node fun _ hc => hc).map Node.keyed = children := by
        simp [List.map_pmap, hkeyed]
      refine ⟨.build h (children.pmap node fun _ hc => hc), .build h fun n hn => ?_, ?_⟩
      · obtain ⟨c, hc, rfl⟩ := List.mem_pmap.mp hn
        exact hbuilt c hc
      · rw [← Node.build_keyed, hchildren]
  | compile d =>
      exact ⟨_, (NodeDefinition.built_compile d).mapValue, (compile_eq_keyed embed d).symm⟩
  | @grow t t' c path _ _ hgrow iht ihc =>
      obtain ⟨n, hn, rfl⟩ := iht
      obtain ⟨m, hm, rfl⟩ := ihc
      rw [Node.modifyAt?_keyed (fun p => Node.header_addTo m p) (fun p => Node.addTo_keyed m p)]
        at hgrow
      obtain ⟨n', hmodify, rfl⟩ := Option.map_eq_some_iff.mp hgrow
      exact ⟨n', .grow hn hm hmodify, rfl⟩
  | part _ hat ih =>
      obtain ⟨n, hn, rfl⟩ := ih
      obtain ⟨m, hm, rfl⟩ := Node.at?_keyed_eq_some_iff.mp hat
      exact ⟨m, .part hn hm, rfl⟩

theorem Reachable.keptByName {k : KeyedNode Source Value} (hk : k.Reachable embed) :
    k.KeptByName := by
  obtain ⟨n, hn, rfl⟩ := hk.exists_built
  exact Node.keptByName_keyed hn.namesDistinct

/-- **Children stand under their names.** In a tree that can be reached the key of every child is its
name, and no two children share one. Whatever is added anywhere is one more child there unless its
name is taken. All this is a tree of `Node` with its names as keys, where adding is adding here. -/
theorem reachable_kept_by_name {k : KeyedNode Source Value} (hk : k.Reachable embed) :
    k.KeptByName
      ∧ (∀ path m, k.at? path = some m → ∀ c : KeyedNode Source Value,
        (c.addTo m).children.length
          = if (m.child? c.name).isSome then m.children.length else m.children.length + 1)
      ∧ ∃ n : Node Source Value, n.Built ∧ n.keyed = k
        ∧ ∀ path m, n.at? path = some m → k.at? path = some m.keyed
          ∧ ∀ c : Node Source Value, (m.addChild c).keyed = c.keyed.addTo m.keyed := by
  have hkept := hk.keptByName
  obtain ⟨n, hn, rfl⟩ := hk.exists_built
  refine ⟨hkept, ?_, n, hn, rfl, ?_⟩
  · intro path m hat c
    obtain ⟨m, hm, rfl⟩ := Node.at?_keyed_eq_some_iff.mp hat
    exact length_children_addTo (Node.keysAscend_keyed (hn.ascending.of_at? hm).here) c
  · intro path m hat
    refine ⟨?_, fun c => (Node.addTo_keyed c m).symm⟩
    exact Node.at?_keyed_eq_some_iff.mpr ⟨m, hat, rfl⟩

def repeatCount : NodeDefinition :=
  (NodeDefinition.literal "repeat").withChild (.ofArgument "count" (.integer ⟨none, none⟩))

def greeting : NodeDefinition := (NodeDefinition.literal "hello").withExecutes default

/-- Behind the count stands a greeting: the same one again is no other child, another word is. -/
theorem reachable_kept_by_name_repeatCount :
    ∃ t m : KeyedNode PermissionSet ArgumentValue,
      modifyAt? (fun k => (compile id greeting).addTo k) ["count"] (compile id repeatCount) = some t
        ∧ t.Reachable id ∧ t.KeptByName ∧ t.at? ["count"] = some m ∧ m.children.length = 1
        ∧ ((compile id greeting).addTo m).children.length = 1
        ∧ ((compile id repeatCount).addTo m).children.length = 2 := by
  have hrun : ((modifyAt? (fun k => (compile id greeting).addTo k) ["count"]
        (compile id repeatCount : KeyedNode PermissionSet ArgumentValue)).bind fun t =>
      (t.at? ["count"]).map fun m =>
        (m.children.length, (m.child? "hello").isSome, (m.child? "repeat").isSome))
      = some (1, true, false) := by decide +kernel
  obtain ⟨t, hgrow, hrun⟩ := Option.bind_eq_some_iff.mp hrun
  obtain ⟨m, hat, hrun⟩ := Option.map_eq_some_iff.mp hrun
  obtain ⟨hlength, hhello, hrepeat⟩ : m.children.length = 1 ∧ (m.child? "hello").isSome = true
      ∧ (m.child? "repeat").isSome = false := by
    simpa only [Prod.mk.injEq] using hrun
  have hreachable : t.Reachable id := .grow (.compile repeatCount) (.compile greeting) hgrow
  obtain ⟨hkept, hcount, -⟩ := reachable_kept_by_name hreachable
  have hnames : (compile id greeting : KeyedNode PermissionSet ArgumentValue).name = "hello"
      ∧ (compile id repeatCount : KeyedNode PermissionSet ArgumentValue).name = "repeat" := ⟨rfl, rfl⟩
  refine ⟨t, m, hgrow, hreachable, hkept, hat, hlength, ?_, ?_⟩
  · rw [hcount ["count"] m hat, hnames.1, if_pos hhello, hlength]
  · rw [hcount ["count"] m hat, hnames.2, hrepeat, hlength]
    rfl

end KeyedNode

end CommandGrammar
