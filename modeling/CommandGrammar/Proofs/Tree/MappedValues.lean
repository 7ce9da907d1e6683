import CommandGrammar.Proofs.Tree.Built

/-!
# Values of another type

Changing the type of the values that arguments yield touches no name and makes no keyword of an
argument. So it may be done before or after any other step, and a tree that is built stays one.
-/

namespace CommandGrammar

variable {Source Value Value' : Type} (f : Value → Value')

def NodeHeader.mapValue (h : NodeHeader Source Value) : NodeHeader Source Value' :=
  { h with kind := h.kind.map f }

namespace Node

theorem mapValues_eq_map (ms : List (Node Source Value)) :
    mapValues f ms = ms.map (mapValue f) := by
  induction ms with
  | nil => rfl
  | cons c ms ih => rw [mapValues, ih, List.map_cons]

theorem header_mapValue (n : Node Source Value) :
    (n.mapValue f).header = n.header.mapValue f := by
  cases n
  rfl

theorem name_mapValue (n : Node Source Value) : (n.mapValue f).name = n.name := by
  cases n
  rfl

theorem children_mapValue (n : Node Source Value) :
    (n.mapValue f).children = mapValues f n.children := by
  cases n
  rfl

theorem child?_mapValue (n : Node Source Value) (name : String) :
    (n.mapValue f).child? name = (n.child? name).map (mapValue f) := by
  rw [child?, children_mapValue, mapValues_eq_map, List.find?_map, child?]
  simp only [Function.comp_def, name_mapValue]

theorem put_mapValues (n : Node Source Value) (ms : List (Node Source Value)) :
    put (n.mapValue f) (mapValues f ms) = mapValues f (put n ms) := by
  induction ms with
  | nil => rfl
  | cons m ms ih =>
      rw [mapValues, put, put, name_mapValue, name_mapValue, ih]
      split_ifs <;> rfl

mutual

theorem addTo_mapValue : ∀ c parent : Node Source Value,
    (c.mapValue f).addTo (parent.mapValue f) = (c.addTo parent).mapValue f
  | ⟨h, children⟩, parent => by
    have hjoined : (parent.mapValue f).joined (mapValue f ⟨h, children⟩)
        = (parent.joined ⟨h, children⟩).mapValue f := by
      have hchild : (parent.mapValue f).child? (mapValue f ⟨h, children⟩).name
          = (parent.child? (name ⟨h, children⟩)).map (mapValue f) := by
        rw [name_mapValue, child?_mapValue]
      rw [joined, joined, hchild, header_mapValue, NodeHeader.mapValue]
      cases parent.header.kind with
      | literal caseSensitive => rfl
      | argument parser =>
          cases parent.child? (name ⟨h, children⟩) with
          | none => rfl
          | some old => exact addAllTo_mapValues children old
    rw [addTo_eq, addTo_eq, hjoined, children_mapValue, put_mapValues, header_mapValue]
    rfl

theorem addAllTo_mapValues : ∀ (cs : List (Node Source Value)) (parent : Node Source Value),
    addAllTo (mapValues f cs) (parent.mapValue f) = (addAllTo cs parent).mapValue f
  | [], parent => by
    rw [mapValues, addAllTo, addAllTo]
  | c :: cs, parent => by
    rw [mapValues, addAllTo, addAllTo, addTo_mapValue c parent, addAllTo_mapValues cs]

end

theorem build_mapValue (h : NodeHeader Source Value) (cs : List (Node Source Value)) :
    build (h.mapValue f) (cs.map (mapValue f)) = (build h cs).mapValue f := by
  rw [build, build, ← addAllTo_mapValues, mapValues_eq_map]
  rfl

theorem at?_mapValue (n : Node Source Value) (path : List String) :
    (n.mapValue f).at? path = (n.at? path).map (mapValue f) := by
  induction path generalizing n with
  | nil => rfl
  | cons name path ih =>
      rw [at?_cons, at?_cons, child?_mapValue]
      cases n.child? name with
      | none => rfl
      | some c => exact ih c

theorem modifyAt?_mapValue {change : Node Source Value → Node Source Value}
    {change' : Node Source Value' → Node Source Value'}
    (hchange : ∀ m, change' (m.mapValue f) = (change m).mapValue f) (path : List String)
    (n : Node Source Value) :
    modifyAt? change' path (n.mapValue f) = (modifyAt? change path n).map (mapValue f) := by
  induction path generalizing n with
  | nil => exact congrArg some (hchange n)
  | cons name path ih =>
      rw [modifyAt?, modifyAt?, child?_mapValue]
      cases n.child? name with
      | none => rfl
      | some c =>
          simp only [Option.map_some, Option.bind_eq_bind, Option.bind_some, ih]
          cases modifyAt? change path c with
          | none => rfl
          | some c' =>
              simp only [Option.map_some, Option.bind_some, header_mapValue, children_mapValue,
                put_mapValues]
              rfl

variable {f}

theorem Built.mapValue {t : Node Source Value} (ht : t.Built) : (t.mapValue f).Built := by
  induction ht with
  | build h _ ih =>
      rw [← build_mapValue]
      exact .build _ (List.forall_mem_map.mpr ih)
  | @grow t t' c path _ _ hgrow iht ihc =>
      have hmapped : modifyAt? (fun n => n.addChild (c.mapValue f)) path (t.mapValue f)
          = some (t'.mapValue f) :=
        (modifyAt?_mapValue f (fun n => addTo_mapValue f c n) path t).trans
          (congrArg (Option.map (Node.mapValue f)) hgrow)
      exact .grow iht ihc hmapped
  | @part t n path _ hat ih =>
      have hmapped : (t.mapValue f).at? path = some (n.mapValue f) := by
        rw [at?_mapValue, hat, Option.map_some]
      exact .part ih hmapped

end Node

end CommandGrammar
