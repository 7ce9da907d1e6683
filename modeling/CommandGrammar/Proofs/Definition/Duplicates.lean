import CommandGrammar.Proofs.Definition.Mirror
import CommandGrammar.Proofs.Tree.Enumeration

/-!
# Siblings of one name

What happens to siblings of one name when they are compiled can be written in the definition itself.
Below a keyword only the last of them counts. Below an argument the first of them stays and takes
over the children of the others.
-/

namespace CommandGrammar

/-! ### Adding to a literal -/

namespace Node

variable {Source Value : Type} {c d parent : Node Source Value}

/-- A literal forgets a child when another one of its name is added. -/
theorem addTo_addTo_of_name_eq (hparent : parent.isLiteral = true) (hname : c.name = d.name) :
    d.addTo (c.addTo parent) = d.addTo parent := by
  have hadded : (c.addTo parent).isLiteral = true := (isLiteral_addTo c parent).trans hparent
  rw [addTo_eq d, joined_of_isLiteral d hadded, addTo_eq d, joined_of_isLiteral d hparent, addTo_eq c,
    joined_of_isLiteral c hparent, put_put_of_name_eq parent.children hname]

/-- A child of a literal counts for nothing if one of its name comes later. -/
theorem addAllTo_addTo_of_name_mem {cs : List (Node Source Value)} (hparent : parent.isLiteral = true)
    (hlater : c.name ∈ cs.map name) : addAllTo cs (c.addTo parent) = addAllTo cs parent := by
  induction cs generalizing parent with
  | nil => cases hlater
  | cons d cs ih =>
      rw [addAllTo, addAllTo]
      by_cases hname : c.name = d.name
      · rw [addTo_addTo_of_name_eq hparent hname]
      · have hrest : c.name ∈ cs.map name := by
          rw [List.map_cons] at hlater
          exact (List.mem_cons.mp hlater).resolve_left hname
        have hadded : (d.addTo parent).isLiteral = true := (isLiteral_addTo d parent).trans hparent
        rw [← addTo_comm parent hname, ih hadded hrest]

/-! ### Adding to an argument -/

/-- Two children of one name that meet in an argument: the first stays and gets what is below the
second. -/
theorem addTo_addTo_of_free (hparent : parent.isLiteral = false) (hfree : parent.child? c.name = none)
    (hname : d.name = c.name) :
    d.addTo (c.addTo parent) = (addAllTo d.children c).addTo parent := by
  have hmerged : parent.child? (addAllTo d.children c).name = none := by
    rw [name_addAllTo, hfree]
  rw [addTo_addTo_of_isLiteral_eq_false hparent hname, joined_of_child?_eq_none hfree, addTo_eq,
    joined_of_child?_eq_none hmerged]

end Node

namespace NodeDefinition

variable {Source : Type} [PermissionSource Source]

/-- The definitions without those that have a later one of their name. -/
def lastOfEachName : List NodeDefinition → List NodeDefinition
  | [] => []
  | d :: ds => if d.name ∈ ds.map name then lastOfEachName ds else d :: lastOfEachName ds

theorem map_name_compile (ds : List NodeDefinition) :
    (ds.map compile).map (@Node.name Source ArgumentValue) = ds.map name := by
  rw [List.map_map]
  exact List.map_congr_left fun d _ => name_compile d

theorem addAllTo_lastOfEachName (ds : List NodeDefinition) {parent : Node Source ArgumentValue}
    (hparent : parent.isLiteral = true) :
    Node.addAllTo ((lastOfEachName ds).map compile) parent
      = Node.addAllTo (ds.map compile) parent := by
  induction ds generalizing parent with
  | nil => rfl
  | cons d ds ih =>
      rw [lastOfEachName, List.map_cons, Node.addAllTo]
      split
      · rename_i hlater
        have hnames : (d.compile : Node Source ArgumentValue).name
            ∈ (ds.map compile).map (@Node.name Source ArgumentValue) := by
          rwa [map_name_compile, name_compile]
        rw [ih hparent, Node.addAllTo_addTo_of_name_mem hparent hnames]
      · have hadded : (d.compile.addTo parent).isLiteral = true :=
          (Node.isLiteral_addTo _ parent).trans hparent
        rw [List.map_cons, Node.addAllTo, ih hadded]

/-- The definition with the children of another one behind its own. -/
def withChildrenOf (d other : NodeDefinition) : NodeDefinition :=
  { d with children := d.children ++ other.children }

/-- What is merged into the first definition is the list of children of the second, in any order. -/
theorem compile_withChildrenOf {d other : NodeDefinition}
    (hnodup : (other.children.map name).Nodup) :
    ((d.withChildrenOf other).compile : Node Source ArgumentValue)
      = .addAllTo (other.compile : Node Source ArgumentValue).children d.compile := by
  have hnames : ((other.children.map compile).map (@Node.name Source ArgumentValue)).Nodup := by
    rwa [map_name_compile]
  have hperm : (other.children.map compile).Perm
      (other.compile : Node Source ArgumentValue).children := by
    rw [compile_eq_build other]
    exact (Node.children_build_perm hnames other.header).symm
  calc ((d.withChildrenOf other).compile : Node Source ArgumentValue)
      = .addAllTo (other.children.map compile) (.build d.header (d.children.map compile)) := by
        rw [compile_eq_build, withChildrenOf, List.map_append, Node.build, Node.addAllTo_append]
        rfl
    _ = .addAllTo (other.compile : Node Source ArgumentValue).children
          (.build d.header (d.children.map compile)) := by
        rw [Node.addAllTo_eq_foldl, Node.addAllTo_eq_foldl,
          Node.foldl_addChild_eq_of_perm hnames hperm]
    _ = .addAllTo (other.compile : Node Source ArgumentValue).children d.compile := by
        rw [compile_eq_build d]

theorem addAllTo_merged {pre mid post : List NodeDefinition} {first second : NodeDefinition}
    {h : NodeHeader Source ArgumentValue} (hkind : h.kind.isLiteral = false)
    (hsecond : second.name = first.name) (hpre : ∀ e ∈ pre, e.name ≠ first.name)
    (hmid : ∀ e ∈ mid, e.name ≠ first.name) (hnodup : (second.children.map name).Nodup) :
    Node.addAllTo ((pre ++ first :: mid ++ second :: post).map compile) ⟨h, []⟩
      = Node.addAllTo ((pre ++ first.withChildrenOf second :: mid ++ post).map compile) ⟨h, []⟩ := by
  have hother : ∀ {ds : List NodeDefinition} {name : String}, (∀ e ∈ ds, e.name ≠ name) →
      ∀ n ∈ (ds.map compile : List (Node Source ArgumentValue)), n.name ≠ name := by
    intro ds name hne n hn
    obtain ⟨e, he, rfl⟩ := List.mem_map.mp hn
    rw [name_compile]
    exact hne e he
  have hmeets : ∀ e ∈ mid, e.name ≠ (second.compile : Node Source ArgumentValue).name := by
    rwa [name_compile, hsecond]
  generalize hbefore : Node.addAllTo (pre.map compile) ⟨h, []⟩ = parent
  have hparent : parent.isLiteral = false := by
    rw [← hbefore, Node.isLiteral_addAllTo]
    exact hkind
  have hfree : parent.child? (first.compile : Node Source ArgumentValue).name = none := by
    rw [name_compile, ← hbefore, Node.child?_addAllTo_of_forall_ne (hother hpre)]
    rfl
  have hname : (second.compile : Node Source ArgumentValue).name
      = (first.compile : Node Source ArgumentValue).name := by
    rw [name_compile, name_compile, hsecond]
  simp only [List.map_append, List.map_cons, List.append_assoc, List.cons_append,
    Node.addAllTo_append, Node.addAllTo, hbefore]
  -- what stands in between has other names, so that the second may be added right behind the first
  rw [← Node.addAllTo_addTo_comm (hother hmeets), Node.addTo_addTo_of_free hparent hfree hname,
    compile_withChildrenOf hnodup]

/-- **Siblings of one name.** A keyword is compiled as if each of its children that has a later
sibling of its name were not there. An argument is compiled as if the second of two children of one
name were not there and its children stood behind those of the first, as long as they have different
names. -/
theorem compile_duplicate_siblings :
    (∀ d : NodeDefinition, d.argument = none →
        (d.compile : Node Source ArgumentValue)
          = compile { d with children := lastOfEachName d.children })
      ∧ (∀ (d first second : NodeDefinition) (type : ArgumentType)
          (pre mid post : List NodeDefinition),
        d.argument = some type → d.children = pre ++ first :: mid ++ second :: post →
        second.name = first.name → (∀ e ∈ pre, e.name ≠ first.name) →
        (∀ e ∈ mid, e.name ≠ first.name) → (second.children.map name).Nodup →
        (d.compile : Node Source ArgumentValue)
          = compile { d with children := pre ++ first.withChildrenOf second :: mid ++ post }) := by
  constructor
  · intro d hkind
    have hliteral : Node.isLiteral ⟨(d.header : NodeHeader Source ArgumentValue), []⟩ = true := by
      rw [Node.isLiteral, header, hkind]
      rfl
    rw [compile_eq_build, compile_eq_build]
    exact (addAllTo_lastOfEachName d.children hliteral).symm
  · intro d first second type pre mid post hkind hchildren hsecond hpre hmid hnodup
    have hargument : (d.header : NodeHeader Source ArgumentValue).kind.isLiteral = false := by
      rw [header, hkind]
      rfl
    rw [compile_eq_build, compile_eq_build, hchildren]
    exact addAllTo_merged hargument hsecond hpre hmid hnodup

/-- An item that asks for a permission, over a leaf. -/
def guardedItem : NodeDefinition :=
  ((ofArgument "item" .word).withRequires "trade").withChild (literal "small")

/-- A keyword of the same name, over another leaf. -/
def openItem : NodeDefinition := (literal "item").withChild (literal "large")

/-- Below a keyword the open item is left of the two, below an argument the guarded one over both
leaves. -/
theorem compile_duplicate_siblings_items :
    (compile { literal "offer" with children := [guardedItem, literal "list", openItem] }
        : Node PermissionSet ArgumentValue)
        = compile { literal "offer" with children := [literal "list", openItem] }
      ∧ (compile { ofArgument "offer" .word with children := [guardedItem, literal "list", openItem] }
        : Node PermissionSet ArgumentValue)
        = compile { ofArgument "offer" .word with
            children := [guardedItem.withChildrenOf openItem, literal "list"] } := by
  have hlast : lastOfEachName [guardedItem, literal "list", openItem] = [literal "list", openItem] :=
    rfl
  constructor
  · rw [compile_duplicate_siblings.1 _ rfl, hlast]
  · exact compile_duplicate_siblings.2 _ guardedItem openItem .word [] [literal "list"] [] rfl rfl rfl
      (by decide) (by decide) (by decide)

end NodeDefinition

end CommandGrammar
