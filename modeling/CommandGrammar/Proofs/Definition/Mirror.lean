import CommandGrammar.Definition.Basic
import CommandGrammar.Proofs.Tree.Merging

/-!
# What a definition compiles to

Siblings of different names do not meet when they are added, so that none of them is lost or
changed. The tree has then a node at every path of the definition, with what is written there, and
no other node.
-/

namespace CommandGrammar

namespace NodeDefinition

def child? (d : NodeDefinition) (name : String) : Option NodeDefinition :=
  d.children.find? fun c => c.name == name

/-- The definition at the end of a path of names. -/
def at? (d : NodeDefinition) : List String → Option NodeDefinition
  | [] => some d
  | name :: path => (d.child? name).bind fun c => c.at? path

/-- Siblings have different names, at any depth. -/
inductive SiblingsDistinct : NodeDefinition → Prop where
  | node {d : NodeDefinition} (hnodup : (d.children.map name).Nodup)
      (hchildren : ∀ c ∈ d.children, SiblingsDistinct c) : SiblingsDistinct d

theorem SiblingsDistinct.nodup {d : NodeDefinition} (h : d.SiblingsDistinct) :
    (d.children.map name).Nodup := by
  cases h with
  | node hnodup _ => exact hnodup

theorem SiblingsDistinct.of_child? {c d : NodeDefinition} (h : d.SiblingsDistinct) {name : String}
    (hc : d.child? name = some c) : c.SiblingsDistinct := by
  cases h with
  | node _ hchildren => exact hchildren c (List.mem_of_find?_eq_some hc)

end NodeDefinition

variable {Source : Type} [PermissionSource Source]

/-- The node does what is written in the definition, children apart. -/
structure Node.Mirrors (n : Node Source ArgumentValue) (d : NodeDefinition) : Prop where
  name : n.name = d.name
  isArgument : n.isArgument = true ↔ ∃ type, d.argument = some type
  read : ∀ type, d.argument = some type →
    ∃ parser, n.parser = some parser ∧ ∀ r, parser.read r = type.read r
  literal : d.argument = none → n.isLiteral = true ∧ n.caseSensitive = some d.caseSensitive
  isExecutable : n.isExecutable = true ↔ ∃ code, d.executes = some code
  execute : ∀ code, d.executes = some code → ∀ source, n.execute source = .ok code
  canUse : ∀ source, n.canUse source = true ↔ d.requires = none
    ∨ ∃ permission, d.requires = some permission
      ∧ PermissionSource.hasPermission source permission = true

namespace NodeDefinition

theorem mirrors_of_header_eq {n : Node Source ArgumentValue} {d : NodeDefinition}
    (h : n.header = d.header) : n.Mirrors d := by
  obtain ⟨header, below⟩ := n
  obtain rfl : header = d.header := h
  obtain ⟨name, argument, caseSensitive, requires, executes, children⟩ := d
  refine ⟨rfl, ?_, ?_, ?_, ?_, ?_, ?_⟩
  · cases argument <;>
      simp [NodeDefinition.header, Node.isArgument, Node.isLiteral, NodeKind.isLiteral]
  · rintro type rfl
    exact ⟨.ofType type, rfl, fun r => rfl⟩
  · rintro rfl
    exact ⟨rfl, rfl⟩
  · cases executes <;> simp [NodeDefinition.header, Node.isExecutable]
  · rintro code rfl source
    rfl
  · intro source
    cases requires <;> simp [NodeDefinition.header, Node.canUse]

/-! ### Compiling -/

theorem compileAll_eq_map (ds : List NodeDefinition) :
    (compileAll ds : List (Node Source ArgumentValue)) = ds.map compile := by
  induction ds with
  | nil => rfl
  | cons d ds ih => rw [compileAll, ih, List.map_cons]

theorem compile_eq_build (d : NodeDefinition) :
    (d.compile : Node Source ArgumentValue) = .build d.header (d.children.map compile) := by
  obtain ⟨name, argument, caseSensitive, requires, executes, children⟩ := d
  rw [compile, compileAll_eq_map]
  rfl

theorem header_compile (d : NodeDefinition) :
    (d.compile : Node Source ArgumentValue).header = d.header := by
  rw [compile_eq_build, Node.build, Node.header_addAllTo]

@[simp]
theorem name_compile (d : NodeDefinition) :
    (d.compile : Node Source ArgumentValue).name = d.name := by
  rw [Node.name, header_compile]
  rfl

theorem child?_compile {d : NodeDefinition} (hnodup : (d.children.map name).Nodup) (name : String) :
    (d.compile : Node Source ArgumentValue).child? name = (d.child? name).map compile := by
  have hnames : ((d.children.map compile).map (@Node.name Source ArgumentValue)).Nodup := by
    simpa [Function.comp_def] using hnodup
  rw [compile_eq_build, Node.child?_build hnames, List.find?_map, child?]
  simp only [Function.comp_def, name_compile]

/-- Compiling and going down a path may change places. -/
theorem at?_compile {d : NodeDefinition} (hd : d.SiblingsDistinct) (path : List String) :
    (d.compile : Node Source ArgumentValue).at? path = (d.at? path).map compile := by
  induction path generalizing d with
  | nil => rfl
  | cons name path ih =>
      rw [Node.at?_cons, child?_compile hd.nodup, at?]
      cases hc : d.child? name with
      | none => rfl
      | some c => exact ih (hd.of_child? hc)

/-- **Compiling mirrors the definition.** When siblings have different names, the tree has a node
where the definition has one, and it reads, runs and admits as is written there. -/
theorem compile_mirrors {d : NodeDefinition} (hd : d.SiblingsDistinct) (path : List String) :
    ((∃ n, (d.compile : Node Source ArgumentValue).at? path = some n) ↔ ∃ e, d.at? path = some e)
      ∧ ∀ (n : Node Source ArgumentValue) e, d.compile.at? path = some n → d.at? path = some e →
        n.Mirrors e := by
  rw [at?_compile hd]
  constructor
  · simp only [Option.map_eq_some_iff, exists_comm (α := Node Source ArgumentValue),
      exists_and_left, exists_eq', and_true]
  · intro n e hn he
    rw [he] at hn
    obtain rfl := Option.some.inj hn
    exact mirrors_of_header_eq e.header_compile

/-- A keyword that asks for a permission, over a number from one on that gives a code. -/
def givenAmount : NodeDefinition :=
  ((literal "give").withRequires "admin").withChild
    ((ofArgument "amount" (.integer ⟨some ⟨1, by decide, by decide⟩, none⟩)).withExecutes default)

theorem siblingsDistinct_givenAmount : givenAmount.SiblingsDistinct := by
  refine .node (by decide) fun c hc => ?_
  obtain rfl := List.mem_singleton.mp hc
  exact .node (by decide) fun c hc => by cases hc

/-- The keyword can be used with the permission and not without it, and the number behind it refuses
zero and gives its code to everyone. -/
theorem compile_mirrors_givenAmount :
    givenAmount.SiblingsDistinct
      ∧ (∃ n : Node PermissionSet ArgumentValue, givenAmount.compile.at? [] = some n
        ∧ n.canUse ⟨["admin"]⟩ = true ∧ n.canUse .empty = false)
      ∧ ∃ n : Node PermissionSet ArgumentValue, givenAmount.compile.at? ["amount"] = some n
        ∧ (∀ source, n.execute source = .ok default)
        ∧ ∃ parser, n.parser = some parser
          ∧ (∃ e, (parser.read (.ofString "0")).1 = .error e)
          ∧ (parser.read (.ofString "7 x")).1 = .ok (.integer ⟨7, by decide, by decide⟩)
          ∧ (parser.read (.ofString "7 x")).2.cursor = 1 := by
  have hroot := @compile_mirrors PermissionSet _ _ siblingsDistinct_givenAmount []
  have hbelow := @compile_mirrors PermissionSet _ _ siblingsDistinct_givenAmount ["amount"]
  refine ⟨siblingsDistinct_givenAmount, ?_, ?_⟩
  · obtain ⟨n, hn⟩ := hroot.1.mpr ⟨_, rfl⟩
    have huse := (hroot.2 n _ hn rfl).canUse
    refine ⟨n, hn, (huse _).mpr (.inr ⟨"admin", rfl, by decide⟩), ?_⟩
    apply Bool.eq_false_iff.mpr
    intro hempty
    rcases (huse _).mp hempty with hnone | ⟨permission, -, hhas⟩
    · cases hnone
    · cases hhas
  · obtain ⟨n, hn⟩ := hbelow.1.mpr ⟨_, rfl⟩
    have hmirrors := hbelow.2 n _ hn rfl
    obtain ⟨parser, hparser, hread⟩ := hmirrors.read _ rfl
    refine ⟨n, hn, hmirrors.execute _ rfl, parser, hparser, ?_⟩
    rw [hread, hread]
    exact ⟨⟨_, rfl⟩, rfl, rfl⟩

end NodeDefinition

end CommandGrammar
