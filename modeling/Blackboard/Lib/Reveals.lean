import Mathlib.Data.List.Forall2

/-! What a view tells beyond a relation of states that its readers may know anyway: of two related
states the view is the same exactly where the leak is. A view with nothing to leak is noninterference. -/

/-- Of related states, `view` tells apart those that `leak` does. -/
def Reveals {S V E : Type} (R : S → S → Prop) (view : S → V) (leak : S → E) : Prop :=
  ∀ ⦃s t⦄, R s t → (view s = view t ↔ leak s = leak t)

namespace Reveals

variable {S T V W E F : Type} {R : S → S → Prop} {view : S → V} {leak : S → E}

theorem silent_iff : Reveals R view (fun _ => ()) ↔ ∀ ⦃s t⦄, R s t → view s = view t :=
  ⟨fun h _ _ r => (h r).mpr rfl, fun h _ _ r => ⟨fun _ => rfl, fun _ => h r⟩⟩

/-- Knowing more leaves no more to leak. -/
theorem mono {Q : S → S → Prop} (h : Reveals R view leak) (hq : ∀ s t, Q s t → R s t) : Reveals Q view leak :=
  fun s t q => h (hq s t q)

theorem pair {view' : S → W} {leak' : S → F} (h : Reveals R view leak) (h' : Reveals R view' leak') :
    Reveals R (fun s => (view s, view' s)) (fun s => (leak s, leak' s)) := by
  intro s t r
  simp only [Prod.mk.injEq]
  exact and_congr (h r) (h' r)

/-- A view of a part leaks what it leaks of the part. -/
theorem part (h : Reveals R view leak) (f : T → S) :
    Reveals (fun s t => R (f s) (f t)) (fun s => view (f s)) (fun s => leak (f s)) :=
  fun _ _ r => h r

/-- Row by row, over lists whose rows are related in turn. -/
theorem rows (h : Reveals R view leak) : Reveals (List.Forall₂ R) (List.map view) (List.map leak) := by
  intro xs ys r
  induction r with
  | nil => simp only [List.map_nil]
  | cons r _ ih =>
    simp only [List.map_cons, List.cons.injEq]
    exact and_congr (h r) ih

/-- Lists are related row by row where a function that tells the relation gives the same of both. -/
theorem rows_of_map {K : Type} {cut : S → K} (h : Reveals (fun s t => cut s = cut t) view leak) :
    Reveals (fun xs ys => xs.map cut = ys.map cut) (List.map view) (List.map leak) := by
  refine h.rows.mono fun xs ys he => ?_
  rw [← List.forall₂_eq_eq_eq, List.forall₂_map_left_iff, List.forall₂_map_right_iff] at he
  exact he

end Reveals
