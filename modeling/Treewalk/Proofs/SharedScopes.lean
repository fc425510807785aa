import Treewalk.Scope.Forest

/-!
# Shared scopes are coherent

Several scopes share the scopes around them, so that one update is seen through many scopes and hidden from others.
What is read and written is told by the links from each scope to the one around it alone.

* `Forest.Sees`: going outward from a scope, one gets to another one before any binding of a name.
* `Forest.Owns`: the scope that one gets to binds the name.
* `Forest.Linked`: the ancestors that a scope has on record are those found by following the links.  All operations
  keep this, and it makes the owner that is looked up the one found by following the links
  (`Forest.Linked.owner?_eq_some_iff`).
* `Forest.reads_and_writes_coherent`: what is read after any history, and how one more operation changes it.
-/

namespace Treewalk

namespace Forest

/-! ### Links -/

/-- The scope around the given one. -/
def parent? (forest : Forest) (id : Nat) : Option Nat :=
  forest.scopes[id]?.bind fun shared => shared.ancestors.head?

/-- Going outward from the first scope one gets to the second, and no scope before it binds the name. -/
inductive Sees (forest : Forest) (name : String) : Nat → Nat → Prop where
  | here {id : Nat} (h : id < forest.scopes.length) : Sees forest name id id
  | outward {id parent outer : Nat} (hown : forest.own? id name = none) (hparent : forest.parent? id = some parent)
      (h : Sees forest name parent outer) : Sees forest name id outer

/-- The second scope is the nearest one, from the first outward, that binds the name. -/
def Owns (forest : Forest) (name : String) (id owner : Nat) : Prop :=
  forest.Sees name id owner ∧ (forest.own? owner name).isSome = true

/-- The ancestors on record are those of the scope around, and that scope itself. -/
def Linked (forest : Forest) : Prop :=
  ∀ shared ∈ forest.scopes, ∀ parent ∈ shared.ancestors.head?, forest.path parent = shared.ancestors

private theorem path_of_getElem? {forest : Forest} {id : Nat} {shared : SharedScope}
    (h : forest.scopes[id]? = some shared) : forest.path id = id :: shared.ancestors := by
  rw [path, h]

private theorem path_of_le {forest : Forest} {id : Nat} (h : forest.scopes.length ≤ id) : forest.path id = [] := by
  rw [path, List.getElem?_eq_none h]

/-- The way outward from a scope is the scope itself and the way outward from the scope around it. -/
private theorem Linked.path_of_parent? {forest : Forest} (h : forest.Linked) {id parent : Nat}
    (hparent : forest.parent? id = some parent) : forest.path id = id :: forest.path parent := by
  obtain ⟨shared, hshared, hhead⟩ := Option.bind_eq_some_iff.1 hparent
  rw [path_of_getElem? hshared, h shared (List.mem_of_getElem? hshared) parent hhead]

/-- One sees the scopes on the way outward that have no binding of the name before them. -/
private theorem Linked.sees_iff {forest : Forest} (h : forest.Linked) {name : String} {id outer : Nat} :
    forest.Sees name id outer ↔ ∃ nearer further, forest.path id = nearer ++ outer :: further ∧
      ∀ k ∈ nearer, forest.own? k name = none := by
  constructor
  · intro hsees
    induction hsees with
    | @here id hid =>
      have hpath := path_of_getElem? (List.getElem?_eq_getElem hid)
      exact ⟨[], _, hpath, by simp⟩
    | @outward id parent outer hown hparent _ ih =>
      obtain ⟨nearer, further, hpath, hnearer⟩ := ih
      refine ⟨id :: nearer, further, ?_, List.forall_mem_cons.2 ⟨hown, hnearer⟩⟩
      rw [h.path_of_parent? hparent, hpath, List.cons_append]
  · rintro ⟨nearer, further, hpath, hnearer⟩
    induction nearer generalizing id with
    | nil =>
      cases hshared : forest.scopes[id]? with
      | none => simp [path, hshared] at hpath
      | some shared =>
        rw [path_of_getElem? hshared] at hpath
        obtain ⟨rfl, -⟩ := List.cons.inj hpath
        obtain ⟨hid, -⟩ := List.getElem?_eq_some_iff.1 hshared
        exact .here hid
    | cons k nearer ih =>
      obtain ⟨hk, hlater⟩ := List.forall_mem_cons.1 hnearer
      cases hshared : forest.scopes[id]? with
      | none => simp [path, hshared] at hpath
      | some shared =>
        rw [path_of_getElem? hshared] at hpath
        obtain ⟨rfl, hancestors⟩ := List.cons.inj hpath
        -- what is left of the way starts at the scope around
        cases hparent : shared.ancestors.head? with
        | none =>
          rw [List.head?_eq_none_iff.1 hparent] at hancestors
          simp at hancestors
        | some parent =>
          have hlink := h shared (List.mem_of_getElem? hshared) parent hparent
          have hparent? : forest.parent? id = some parent := by rw [parent?, hshared]; exact hparent
          exact .outward hk hparent? (ih (hlink.trans hancestors) hlater)

theorem Linked.owner?_eq_some_iff {forest : Forest} (h : forest.Linked) {name : String} {id owner : Nat} :
    forest.owner? id name = some owner ↔ forest.Owns name id owner := by
  rw [owner?, List.find?_eq_some_iff_append, Owns, h.sees_iff]
  constructor
  · rintro ⟨hbound, nearer, further, hpath, hnearer⟩
    exact ⟨⟨nearer, further, hpath, fun k hk => by simpa using hnearer k hk⟩, hbound⟩
  · rintro ⟨⟨nearer, further, hpath, hnearer⟩, hbound⟩
    exact ⟨hbound, nearer, further, hpath, fun k hk => by simp [hnearer k hk]⟩

private theorem Linked.owner?_eq_none_iff {forest : Forest} (h : forest.Linked) {name : String} {id : Nat} :
    forest.owner? id name = none ↔ ¬∃ owner, forest.Owns name id owner := by
  simp only [← h.owner?_eq_some_iff, ← Option.isSome_iff_exists, Bool.not_eq_true, Option.isSome_eq_false_iff,
    Option.isNone_iff_eq_none]

/-! ### What an operation leaves -/

private theorem path_add {forest : Forest} {id : Nat} (h : id < forest.scopes.length) (parent : Option Nat) :
    (forest.add parent).path id = forest.path id := by
  rw [path, path, add, List.getElem?_append_left h]

private theorem getElem?_define (forest : Forest) (id : Nat) (name : String) (value : Value) (k : Nat) :
    (forest.define id name value).scopes[k]? = (forest.scopes[k]?).map fun shared =>
      if id = k then { shared with scope := shared.scope.insert name value } else shared := by
  rw [define, List.getElem?_modify]
  split <;> simp

@[simp] private theorem path_define (forest : Forest) (id : Nat) (name : String) (value : Value) (k : Nat) :
    (forest.define id name value).path k = forest.path k := by
  rw [path, path, getElem?_define]
  cases forest.scopes[k]? with
  | none => rfl
  | some shared => by_cases h : id = k <;> simp [h]

private theorem own?_define_self {forest : Forest} {id : Nat} (h : id < forest.scopes.length) (name : String)
    (value : Value) : (forest.define id name value).own? id name = some value := by
  rw [own?, getElem?_define, List.getElem?_eq_getElem h]
  simp [Scope.get?_insert]

/-- Binding a name in one scope leaves the other names, and the other scopes. -/
private theorem own?_define_of_ne {forest : Forest} {id k : Nat} {name other : String} (h : other ≠ name ∨ k ≠ id)
    (value : Value) : (forest.define id name value).own? k other = forest.own? k other := by
  rw [own?, own?, getElem?_define]
  cases forest.scopes[k]? with
  | none => rfl
  | some shared =>
    by_cases hk : id = k
    · have hname : other ≠ name := h.resolve_right fun hne => hne hk.symm
      simp [hk, Scope.get?_insert, hname]
    · simp [hk]

/-- A new scope is inside the given one, if there is this one. -/
private theorem parent?_add {forest : Forest} {parent : Option Nat} (h : ∀ p ∈ parent, p < forest.scopes.length) :
    (forest.add parent).parent? forest.scopes.length = parent := by
  rw [parent?, add, List.getElem?_concat_length, Option.bind_some]
  cases parent with
  | none => rfl
  | some p =>
    have hp : p < forest.scopes.length := h p rfl
    show (forest.path p).head? = some p
    rw [path_of_getElem? (List.getElem?_eq_getElem hp), List.head?_cons]

private theorem parent?_add_of_lt {forest : Forest} {id : Nat} (h : id < forest.scopes.length) (parent : Option Nat) :
    (forest.add parent).parent? id = forest.parent? id := by
  rw [parent?, parent?, add, List.getElem?_append_left h]

private theorem parent?_define (forest : Forest) (id : Nat) (name : String) (value : Value) (k : Nat) :
    (forest.define id name value).parent? k = forest.parent? k := by
  rw [parent?, parent?, getElem?_define]
  cases forest.scopes[k]? with
  | none => rfl
  | some shared => by_cases h : id = k <;> simp [h]

private theorem linked_empty : empty.Linked := by
  intro shared h
  simp [empty] at h

private theorem Linked.add {forest : Forest} (h : forest.Linked) (parent : Option Nat) :
    (forest.add parent).Linked := by
  intro shared hshared outer houter
  -- a way outward that is not empty starts at a scope that there is already
  have hold : ∀ id, forest.path id ≠ [] → (forest.add parent).path id = forest.path id := by
    intro id hne
    have hid : id < forest.scopes.length := Nat.lt_of_not_le fun hle => hne (path_of_le hle)
    exact path_add hid parent
  rw [Forest.add, List.mem_append, List.mem_singleton] at hshared
  rcases hshared with hshared | rfl
  · have hlink := h shared hshared outer houter
    rw [hold outer, hlink]
    rw [hlink]
    rintro hnil
    rw [hnil] at houter
    cases houter
  · cases parent with
    | none => cases houter
    | some parent =>
      cases hscope : forest.scopes[parent]? with
      | none => simp [path, hscope] at houter
      | some scope =>
        have hpath := path_of_getElem? hscope
        simp only [Option.map_some, Option.getD_some, hpath, List.head?_cons, Option.mem_some_iff] at houter
        subst houter
        exact hold parent (by simp [hpath])

private theorem Linked.define {forest : Forest} (h : forest.Linked) (id : Nat) (name : String) (value : Value) :
    (forest.define id name value).Linked := by
  intro shared hshared parent hparent
  obtain ⟨k, hk⟩ := List.mem_iff_getElem?.1 hshared
  rw [getElem?_define] at hk
  obtain ⟨before, hbefore, rfl⟩ := Option.map_eq_some_iff.1 hk
  have hancestors : (if id = k then { before with scope := before.scope.insert name value } else before).ancestors =
      before.ancestors := by split <;> rfl
  rw [hancestors] at hparent ⊢
  rw [path_define]
  exact h before (List.mem_of_getElem? hbefore) parent hparent

/-! ### What an operation changes -/

private theorem Sees.lt {forest : Forest} {name : String} {id outer : Nat} (h : forest.Sees name id outer) :
    outer < forest.scopes.length := by
  induction h with
  | here hid => exact hid
  | outward _ _ _ ih => exact ih

/-- A name that is bound in a scope is then read from every scope that saw this one. -/
private theorem Linked.get?_define_of_sees {forest : Forest} (h : forest.Linked) {id viewer : Nat} {name : String}
    (hsees : forest.Sees name viewer id) (value : Value) :
    (forest.define id name value).get? viewer name = some value := by
  obtain ⟨nearer, further, hpath, hnearer⟩ := h.sees_iff.1 hsees
  have hown := own?_define_self hsees.lt name value
  have howner : (forest.define id name value).owner? viewer name = some id := by
    rw [owner?, path_define, hpath, List.find?_append]
    -- if a scope before it binds the name now, it is the same one
    cases hfound : nearer.find? fun k => ((forest.define id name value).own? k name).isSome with
    | none => simp [hown]
    | some k =>
      by_cases hk : k = id
      · rw [hk, Option.some_or]
      · have hbound := List.find?_some hfound
        rw [own?_define_of_ne (.inr hk), hnearer k (List.mem_of_find?_eq_some hfound)] at hbound
        cases hbound
  rw [get?, howner, Option.bind_some, hown]

/-- A name that is bound in a scope is read as before from every scope that did not see this one. -/
private theorem Linked.get?_define_of_not_sees {forest : Forest} (h : forest.Linked) {id viewer : Nat} {name : String}
    (hsees : ¬forest.Sees name viewer id) (value : Value) :
    (forest.define id name value).get? viewer name = forest.get? viewer name := by
  -- the scope is not among those before the owner
  have hne : ∀ nearer further, forest.path viewer = nearer ++ further →
      (∀ k ∈ nearer, forest.own? k name = none) → ∀ k ∈ nearer, k ≠ id := by
    rintro nearer further hpath hnearer k hk rfl
    obtain ⟨first, later, rfl⟩ := List.append_of_mem hk
    have hfirst : ∀ j ∈ first, forest.own? j name = none := fun j hj => hnearer j (List.mem_append_left _ hj)
    exact hsees (h.sees_iff.2 ⟨first, later ++ further, by rw [hpath]; simp, hfirst⟩)
  cases howner : forest.owner? viewer name with
  | none =>
    have hnone : ∀ k ∈ forest.path viewer, forest.own? k name = none := by
      intro k hk
      simpa using List.find?_eq_none.1 howner k hk
    have hnone' : (forest.define id name value).owner? viewer name = none := by
      refine List.find?_eq_none.2 fun k hk => ?_
      rw [path_define] at hk
      rw [own?_define_of_ne (.inr (hne _ [] (List.append_nil _).symm hnone k hk)), hnone k hk]
      simp
    rw [get?, get?, howner, hnone', Option.bind_none, Option.bind_none]
  | some owner =>
    obtain ⟨howns, hbound⟩ := h.owner?_eq_some_iff.1 howner
    obtain ⟨nearer, further, hpath, hnearer⟩ := h.sees_iff.1 howns
    have howner_ne : owner ≠ id := by
      rintro rfl
      exact hsees howns
    have hsame : (forest.define id name value).own? owner name = forest.own? owner name :=
      own?_define_of_ne (.inr howner_ne) value
    have howner' : (forest.define id name value).owner? viewer name = some owner := by
      refine (h.define id name value).owner?_eq_some_iff.2 ⟨(h.define id name value).sees_iff.2 ?_, by rwa [hsame]⟩
      refine ⟨nearer, further, by rw [path_define, hpath], fun k hk => ?_⟩
      rw [own?_define_of_ne (.inr (hne nearer _ hpath hnearer k hk)), hnearer k hk]
    rw [get?, get?, howner, howner', Option.bind_some, Option.bind_some, hsame]

/-- Other names are read as before. -/
private theorem get?_define_of_ne {name other : String} (h : other ≠ name) (forest : Forest) (id : Nat) (value : Value)
    (viewer : Nat) : (forest.define id name value).get? viewer other = forest.get? viewer other := by
  have hown : ∀ k, (forest.define id name value).own? k other = forest.own? k other :=
    fun k => own?_define_of_ne (.inl h) value
  simp only [get?, owner?, path_define, hown]

/-! ### Histories -/

/-- An operation on shared scopes. -/
inductive Operation where
  | add (parent : Option Nat)
  | define (id : Nat) (name : String) (value : Value)
  | assign (id : Nat) (name : Token) (value : Value)
  | get (id : Nat) (name : Token)

/-- The scopes after an operation.  An assignment that fails leaves them as they are, and so does reading. -/
def perform (forest : Forest) : Operation → Forest
  | .add parent => forest.add parent
  | .define id name value => forest.define id name value
  | .assign id name value =>
    match forest.assign id name value with
    | .ok next => next
    | .error _ => forest
  | .get _ _ => forest

/-- The scopes after a history of operations, before which there were none. -/
def grown (history : List Operation) : Forest := history.foldl perform empty

private theorem get_eq_ok_iff {forest : Forest} {id : Nat} {name : Token} {value : Value} :
    forest.get id name = .ok value ↔ forest.get? id name.lexeme = some value := by
  rw [get]
  cases forest.get? id name.lexeme <;> simp

/-- A name is read as before if it has the same value as before, or still none. -/
private theorem get_congr {forest next : Forest} {id : Nat} {name : Token}
    (h : next.get? id name.lexeme = forest.get? id name.lexeme) : next.get id name = forest.get id name := by
  rw [get, get, h]

private theorem get?_eq_none_iff {forest : Forest} {id : Nat} {name : String} :
    forest.get? id name = none ↔ forest.owner? id name = none := by
  rw [get?, Option.bind_eq_none_iff]
  constructor
  · intro h
    cases howner : forest.owner? id name with
    | none => rfl
    | some owner =>
      have hbound := List.find?_some howner
      rw [h owner howner] at hbound
      cases hbound
  · intro h owner howner
    rw [h] at howner
    cases howner

private theorem get_eq_error_iff {forest : Forest} {id : Nat} {name : Token} :
    forest.get id name = .error (.undefinedVariable name) ↔ forest.owner? id name.lexeme = none := by
  rw [← get?_eq_none_iff, get]
  cases forest.get? id name.lexeme <;> simp

/-- An assignment binds the name in its owner. -/
private theorem assign_of_owner {forest : Forest} {id owner : Nat} {name : Token}
    (h : forest.owner? id name.lexeme = some owner) (value : Value) :
    forest.assign id name value = .ok (forest.define owner name.lexeme value) := by
  rw [assign, assign?, h, Option.map_some]

private theorem assign_of_no_owner {forest : Forest} {id : Nat} {name : Token} (h : forest.owner? id name.lexeme = none)
    (value : Value) : forest.assign id name value = .error (.undefinedVariable name) := by
  rw [assign, assign?, h, Option.map_none]

/-- Every operation keeps the ancestors on record those found by following the links. -/
private theorem Linked.perform {forest : Forest} (h : forest.Linked) (operation : Operation) :
    (forest.perform operation).Linked := by
  cases operation with
  | add parent => exact h.add parent
  | define id name value => exact h.define id name value
  | assign id name value =>
    rw [Forest.perform]
    cases howner : forest.owner? id name.lexeme with
    | none =>
      rw [assign_of_no_owner howner]
      exact h
    | some owner =>
      rw [assign_of_owner howner]
      exact h.define owner name.lexeme value
  | get id name => exact h

/-- No operation changes which scope is around another one. -/
private theorem parent?_perform {forest : Forest} {id : Nat} (h : id < forest.scopes.length) (operation : Operation) :
    (forest.perform operation).parent? id = forest.parent? id := by
  cases operation with
  | add parent => exact parent?_add_of_lt h parent
  | define k name value => exact parent?_define forest k name value id
  | assign k name value =>
    rw [perform]
    cases howner : forest.owner? k name.lexeme with
    | none => rw [assign_of_no_owner howner]
    | some owner =>
      rw [assign_of_owner howner]
      exact parent?_define forest owner name.lexeme value id
  | get k name => rfl

private theorem linked_grown (history : List Operation) : (grown history).Linked := by
  have hrun : ∀ forest : Forest, forest.Linked → (history.foldl Forest.perform forest).Linked := by
    induction history with
    | nil => exact fun _ h => h
    | cons operation later ih => exact fun forest h => ih _ (h.perform operation)
  exact hrun empty linked_empty

/-- Reading and writing after any history of operations.  A scope is made inside the given one and stays there.  A name
is read from its owner, the nearest scope outward that binds it, and is undefined if it has none.  An assignment to a
name without an owner fails and changes nothing; any other is seen from exactly the scopes where the name has the same
owner.  A binding is seen from exactly the scopes from which one gets to it, going outward, before any other binding of
the name.  Whatever else is read is the same as before. -/
theorem reads_and_writes_coherent (history : List Operation) :
    let forest := grown history
    (∀ parent : Option Nat, (∀ p ∈ parent, p < forest.scopes.length) →
      (forest.add parent).parent? forest.scopes.length = parent) ∧
    (∀ operation e, e < forest.scopes.length → (forest.perform operation).parent? e = forest.parent? e) ∧
    (∀ e name, (∀ value, forest.get e name = .ok value ↔
        ∃ owner, forest.Owns name.lexeme e owner ∧ forest.own? owner name.lexeme = some value) ∧
      (forest.get e name = .error (.undefinedVariable name) ↔ ¬∃ owner, forest.Owns name.lexeme e owner)) ∧
    (∀ e name value, (forest.assign e name value = .error (.undefinedVariable name) ∧
        forest.perform (.assign e name value) = forest ↔ ¬∃ owner, forest.Owns name.lexeme e owner) ∧
      ∀ owner, forest.Owns name.lexeme e owner → ∃ next, forest.assign e name value = .ok next ∧
        ∀ e' other, (other.lexeme = name.lexeme ∧ forest.Owns name.lexeme e' owner → next.get e' other = .ok value) ∧
          (¬(other.lexeme = name.lexeme ∧ forest.Owns name.lexeme e' owner) →
            next.get e' other = forest.get e' other)) ∧
    ∀ e name value e' other,
      (other.lexeme = name ∧ forest.Sees name e' e → (forest.define e name value).get e' other = .ok value) ∧
        (¬(other.lexeme = name ∧ forest.Sees name e' e) →
          (forest.define e name value).get e' other = forest.get e' other) := by
  intro forest
  have hlinked : forest.Linked := linked_grown history
  have hdefine : ∀ e name value e' (other : Token),
      (other.lexeme = name ∧ forest.Sees name e' e → (forest.define e name value).get e' other = .ok value) ∧
        (¬(other.lexeme = name ∧ forest.Sees name e' e) →
          (forest.define e name value).get e' other = forest.get e' other) := by
    intro e name value e' other
    constructor
    · rintro ⟨rfl, hsees⟩
      exact get_eq_ok_iff.2 (hlinked.get?_define_of_sees hsees value)
    · intro hno
      apply get_congr
      by_cases hname : other.lexeme = name
      · subst hname
        exact hlinked.get?_define_of_not_sees (fun hsees => hno ⟨rfl, hsees⟩) value
      · exact get?_define_of_ne hname forest e value e'
  refine ⟨fun _ => parent?_add, fun operation _ h => parent?_perform h operation,
    fun e name => ⟨fun value => ?_, ?_⟩, fun e name value => ⟨?_, fun owner howns => ?_⟩, hdefine⟩
  · rw [get_eq_ok_iff, get?, Option.bind_eq_some_iff]
    simp only [hlinked.owner?_eq_some_iff]
  · rw [get_eq_error_iff, hlinked.owner?_eq_none_iff]
  · rw [← hlinked.owner?_eq_none_iff]
    constructor
    · rintro ⟨herror, -⟩
      cases howner : forest.owner? e name.lexeme with
      | none => rfl
      | some owner =>
        rw [assign_of_owner howner] at herror
        cases herror
    · intro hnone
      have herror := assign_of_no_owner hnone value
      exact ⟨herror, by simp only [perform, herror]⟩
  · refine ⟨_, assign_of_owner (hlinked.owner?_eq_some_iff.2 howns) value, fun e' other => ?_⟩
    -- the owner binds the name, so it is the owner for every scope that sees it
    have hsees : forest.Owns name.lexeme e' owner ↔ forest.Sees name.lexeme e' owner := and_iff_left howns.2
    rw [hsees]
    exact hdefine owner name.lexeme value e' other

/-- Two scopes in a third, and one more in the first of these, where the name `a` is bound again.  An assignment from
the other scope is seen there and outside, but not from the innermost scope, which reads what was assigned before. -/
theorem reads_and_writes_coherent_siblings :
    let a : Token := ⟨.identifier, "a", .nil, 1⟩
    let history : List Operation := [.add none, .add (some 0), .add (some 0), .add (some 1),
      .define 0 "a" (.str "outer"), .define 1 "a" (.str "inner"), .assign 3 a (.str "changed"), .get 2 a]
    let forest := grown history
    forest.Owns "a" 2 0 ∧ forest.Owns "a" 0 0 ∧ ¬forest.Owns "a" 3 0 ∧
      ∃ next, forest.assign 2 a (.str "new") = .ok next ∧ next.get 0 a = .ok (.str "new") ∧
        next.get 3 a = forest.get 3 a ∧ forest.get 3 a = .ok (.str "changed") := by
  intro a history forest
  have hroot : forest.Owns "a" 0 0 := ⟨.here (by decide), by decide⟩
  have hsibling : forest.Owns "a" 2 0 := ⟨.outward (by decide) (by decide) (.here (by decide)), by decide⟩
  have hhidden : ¬forest.Owns "a" 3 0 := by
    intro h
    have howner := (linked_grown history).owner?_eq_some_iff.2 h
    revert howner
    decide
  obtain ⟨-, -, -, hassign, -⟩ := reads_and_writes_coherent history
  obtain ⟨next, hnext, hreads⟩ := (hassign 2 a (.str "new")).2 0 hsibling
  exact ⟨hsibling, hroot, hhidden, next, hnext, (hreads 0 a).1 ⟨rfl, hroot⟩,
    (hreads 3 a).2 fun h => hhidden h.2, rfl⟩

end Forest

end Treewalk
