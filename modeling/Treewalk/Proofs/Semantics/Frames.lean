import Treewalk.Proofs.Semantics
import Treewalk.Scope.Chain

/-!
# Scopes as finite maps

A scope stands for a finite map, and a chain of scopes for a stack of them.  Looking a name up, assigning and defining
act on the stack as the rules of the language say: on the innermost map that binds the name, or on the current one.
-/

namespace Treewalk

/-- The finite map of a scope. -/
def Scope.frame (scope : Scope) : Frame :=
  (scope.bindings.map fun (name, value) => (⟨name, value⟩ : (_ : String) × Value)).toFinmap

/-- The finite maps of a chain of scopes, the current one first. -/
def Chain.frames : Chain → List Frame
  | .global scope => [scope.frame]
  | .nested scope outer => scope.frame :: outer.frames

private theorem Scope.lookup_frame (scope : Scope) (name : String) : scope.frame.lookup name = scope.get? name := by
  obtain ⟨bindings⟩ := scope
  rw [frame, Finmap.dlookup_list_toFinmap, get?]
  induction bindings with
  | nil => rfl
  | cons binding later ih =>
    obtain ⟨other, value⟩ := binding
    rw [List.map_cons, findBinding]
    by_cases h : name = other
    · subst h
      rw [if_pos rfl, List.dlookup_cons_eq]
    · rw [if_neg h, List.dlookup_cons_ne _ _ h, ih]

private theorem Scope.mem_frame {scope : Scope} {name : String} : name ∈ scope.frame ↔ scope.binds name = true := by
  rw [← Finmap.lookup_isSome, lookup_frame, binds]

private theorem Scope.frame_insert (scope : Scope) (name : String) (value : Value) :
    (scope.insert name value).frame = scope.frame.insert name value := by
  apply Finmap.ext_lookup
  intro other
  rw [lookup_frame, get?_insert]
  by_cases h : other = name
  · subst h
    rw [if_pos rfl, Finmap.lookup_insert]
  · rw [if_neg h, Finmap.lookup_insert_of_ne _ h, lookup_frame]

namespace Chain

theorem frames_ne_nil (chain : Chain) : chain.frames ≠ [] := by
  cases chain <;> simp [frames]

theorem frames_push (chain : Chain) : chain.push.frames = ∅ :: chain.frames := rfl

theorem frames_define {chain : Chain} {frame : Frame} {σ : List Frame} (h : chain.frames = frame :: σ) (name : String)
    (value : Value) : (chain.define name value).frames = frame.insert name value :: σ := by
  cases chain with
  | global scope | nested scope outer =>
    obtain ⟨rfl, rfl⟩ := List.cons.inj h
    simp only [define, frames, Scope.frame_insert]

/-- A scope that is not the only one can be closed. -/
theorem frames_pop {chain : Chain} {frame : Frame} {σ : List Frame} (h : chain.frames = frame :: σ) (hσ : σ ≠ []) :
    chain.pop.frames = σ := by
  cases chain with
  | global scope => exact absurd (List.cons.inj h).2.symm hσ
  | nested scope outer => exact (List.cons.inj h).2

theorem get?_of_unbound {chain : Chain} {name : String} (h : ∀ f ∈ chain.frames, name ∉ f) :
    chain.get? name = none := by
  induction chain with
  | global scope =>
    have hnone : name ∉ scope.frame := h _ List.mem_cons_self
    rw [get?, ← Scope.lookup_frame]
    exact Finmap.lookup_eq_none.2 hnone
  | nested scope outer ih =>
    obtain ⟨hnone, houter⟩ := List.forall_mem_cons.1 h
    have hlookup := Finmap.lookup_eq_none.2 hnone
    rw [Scope.lookup_frame] at hlookup
    simp only [get?, hlookup, ih houter]

theorem get?_of_nearest {chain : Chain} {name : String} {value : Value} {frame : Frame} {inner outer : List Frame}
    (h : chain.frames = inner ++ frame :: outer) (hinner : ∀ f ∈ inner, name ∉ f)
    (hvalue : frame.lookup name = some value) : chain.get? name = some value := by
  induction chain generalizing inner with
  | global scope =>
    cases inner with
    | nil =>
      obtain ⟨rfl, -⟩ := List.cons.inj h
      rwa [get?, ← Scope.lookup_frame]
    | cons f inner => simp [frames] at h
  | nested scope rest ih =>
    cases inner with
    | nil =>
      obtain ⟨rfl, -⟩ := List.cons.inj h
      rw [Scope.lookup_frame] at hvalue
      simp only [get?, hvalue]
    | cons f inner =>
      obtain ⟨rfl, hrest⟩ := List.cons.inj h
      obtain ⟨hnone, hinner⟩ := List.forall_mem_cons.1 hinner
      have hlookup := Finmap.lookup_eq_none.2 hnone
      rw [Scope.lookup_frame] at hlookup
      simp only [get?, hlookup]
      exact ih hrest hinner

theorem assign?_of_unbound {chain : Chain} {name : String} (h : ∀ f ∈ chain.frames, name ∉ f) (value : Value) :
    chain.assign? name value = none := by
  induction chain with
  | global scope =>
    have hnone : name ∉ scope.frame := h _ List.mem_cons_self
    rw [assign?, if_neg (mt Scope.mem_frame.2 hnone)]
  | nested scope outer ih =>
    obtain ⟨hnone, houter⟩ := List.forall_mem_cons.1 h
    rw [assign?, if_neg (mt Scope.mem_frame.2 hnone), ih houter]
    rfl

theorem assign?_of_nearest {chain : Chain} {name : String} {frame : Frame} {inner outer : List Frame}
    (h : chain.frames = inner ++ frame :: outer) (hinner : ∀ f ∈ inner, name ∉ f) (hframe : name ∈ frame)
    (value : Value) :
    ∃ next, chain.assign? name value = some next ∧ next.frames = inner ++ frame.insert name value :: outer := by
  induction chain generalizing inner with
  | global scope =>
    cases inner with
    | nil =>
      obtain ⟨rfl, rfl⟩ := List.cons.inj h
      refine ⟨_, by rw [assign?, if_pos (Scope.mem_frame.1 hframe)], ?_⟩
      simp only [frames, Scope.frame_insert, List.nil_append]
    | cons f inner => simp [frames] at h
  | nested scope rest ih =>
    cases inner with
    | nil =>
      obtain ⟨rfl, rfl⟩ := List.cons.inj h
      refine ⟨_, by rw [assign?, if_pos (Scope.mem_frame.1 hframe)], ?_⟩
      simp only [frames, Scope.frame_insert, List.nil_append]
    | cons f inner =>
      obtain ⟨rfl, hrest⟩ := List.cons.inj h
      obtain ⟨hnone, hinner⟩ := List.forall_mem_cons.1 hinner
      obtain ⟨next, hnext, hframes⟩ := ih hrest hinner
      refine ⟨.nested scope next, ?_, by simp only [frames, hframes, List.cons_append]⟩
      rw [assign?, if_neg (mt Scope.mem_frame.2 hnone), hnext]
      rfl

end Chain

end Treewalk
