import Mathlib.Logic.Basic
import Mathlib.Tactic.TypeStar

/-! Runs of a machine whose step may refuse an action. An invariant is proved from one
step; `Admits` restricts a run to steps that meet a condition on the state they start from. -/

namespace Runs

variable {σ : Type*} {α : Type*} (step : σ → α → Option σ)

def run : σ → List α → Option σ
  | s, [] => some s
  | s, a :: as => (step s a).bind fun s' => run s' as

@[simp] theorem run_nil (s : σ) : run step s [] = some s := rfl

theorem run_cons (s : σ) (a : α) (as : List α) :
    run step s (a :: as) = (step s a).bind fun s' => run step s' as := rfl

theorem run_cons_eq_some {s t : σ} {a : α} {as : List α} :
    run step s (a :: as) = some t ↔ ∃ u, step s a = some u ∧ run step u as = some t := by
  rw [run_cons, Option.bind_eq_some_iff]

theorem run_append {s t : σ} {as bs : List α} :
    run step s (as ++ bs) = some t ↔ ∃ u, run step s as = some u ∧ run step u bs = some t := by
  induction as generalizing s with
  | nil => simp
  | cons a as ih =>
    simp only [List.cons_append, run_cons_eq_some, ih]
    constructor
    · rintro ⟨u, hu, v, hv, ht⟩
      exact ⟨v, ⟨u, hu, hv⟩, ht⟩
    · rintro ⟨v, ⟨u, hu, hv⟩, ht⟩
      exact ⟨u, hu, v, hv, ht⟩

/-- Every action of the run meets `ok` in the state it is taken from. -/
def Admits (ok : σ → α → Prop) : σ → List α → Prop
  | _, [] => True
  | s, a :: as => ok s a ∧ ∀ s', step s a = some s' → Admits ok s' as

variable {step}

instance decidableAdmits {ok : σ → α → Prop} [∀ s a, Decidable (ok s a)] :
    ∀ (s : σ) (as : List α), Decidable (Admits step ok s as)
  | _, [] => isTrue trivial
  | s, a :: as =>
    match hs : step s a with
    | none => decidable_of_iff (ok s a) ⟨fun h => ⟨h, fun s' h' => by rw [hs] at h'; cases h'⟩, And.left⟩
    | some s' =>
      have : Decidable (Admits step ok s' as) := decidableAdmits s' as
      decidable_of_iff (ok s a ∧ Admits step ok s' as)
        ⟨fun h => ⟨h.1, fun t ht => by rw [hs] at ht; exact Option.some.inj ht ▸ h.2⟩, fun h => ⟨h.1, h.2 s' hs⟩⟩

theorem invariant_under {K : σ → α → Prop} {P : σ → Prop}
    (hstep : ∀ s a s', P s → K s a → step s a = some s' → P s')
    {s t : σ} {as : List α} (h : run step s as = some t) (hok : Admits step K s as) (hs : P s) :
    P t := by
  induction as generalizing s with
  | nil =>
    obtain rfl : s = t := by simpa using h
    exact hs
  | cons a as ih =>
    obtain ⟨u, hu, ht⟩ := (run_cons_eq_some step).mp h
    exact ih ht (hok.2 u hu) (hstep s a u hs hok.1 hu)

theorem Admits.and {ok ok' : σ → α → Prop} {s : σ} {as : List α} (h : Admits step ok s as) (h' : Admits step ok' s as) :
    Admits step (fun s a => ok s a ∧ ok' s a) s as := by
  induction as generalizing s with
  | nil => trivial
  | cons a as ih => exact ⟨⟨h.1, h'.1⟩, fun s' hs => ih (h.2 s' hs) (h'.2 s' hs)⟩

theorem admits_of_forall {ok : σ → α → Prop} {as : List α} (h : ∀ a ∈ as, ∀ s, ok s a) (s : σ) :
    Admits step ok s as := by
  induction as generalizing s with
  | nil => trivial
  | cons a as ih =>
    exact ⟨h a List.mem_cons_self s, fun s' _ => ih (fun b hb => h b (List.mem_cons_of_mem a hb)) s'⟩

theorem admits_true (s : σ) (as : List α) : Admits step (fun _ _ => True) s as :=
  admits_of_forall (fun _ _ _ => trivial) s

theorem invariant {P : σ → Prop} (hstep : ∀ s a s', P s → step s a = some s' → P s')
    {s t : σ} {as : List α} (h : run step s as = some t) (hs : P s) : P t :=
  invariant_under (fun s a s' hs _ => hstep s a s' hs) h (admits_true s as) hs

/-- What one step relates, a run relates. -/
theorem related {P : σ → Prop} {R : σ → σ → Prop} (hrefl : ∀ s, R s s)
    (htrans : ∀ s t u, R s t → R t u → R s u)
    (hinv : ∀ s a s', P s → step s a = some s' → P s')
    (hstep : ∀ s a s', P s → step s a = some s' → R s s')
    {s t : σ} {as : List α} (h : run step s as = some t) (hs : P s) : R s t := by
  induction as generalizing s with
  | nil =>
    obtain rfl : s = t := by simpa using h
    exact hrefl s
  | cons a as ih =>
    obtain ⟨u, hu, ht⟩ := (run_cons_eq_some step).mp h
    exact htrans s u t (hstep s a u hs hu) (ih ht (hinv s a u hs hu))

/-! Two machines that answer every action. They give the same answers if each step does, on actions
that meet a condition on what went before them. -/

section Replies

variable {τ : Type*} {β : Type*}

def replies (step : σ → α → β × σ) : σ → List α → List β
  | _, [] => []
  | s, a :: as => (step s a).1 :: replies step (step s a).2 as

def Orderly (ok : List α → α → Prop) (as : List α) : Prop := ∀ pre a post, as = pre ++ a :: post → ok pre a

theorem replies_eq {f : σ → α → β × σ} {g : τ → α → β × τ} {K : List α → α → Prop} {R : List α → σ → τ → Prop}
    (hstep : ∀ pre a s t, R pre s t → K pre a → (f s a).1 = (g t a).1 ∧ R (pre ++ [a]) (f s a).2 (g t a).2)
    {as pre : List α} {s : σ} {t : τ} (hR : R pre s t)
    (hok : ∀ mid a post, as = mid ++ a :: post → K (pre ++ mid) a) : replies f s as = replies g t as := by
  induction as generalizing pre s t with
  | nil => rfl
  | cons a as ih =>
    have ha : K pre a := by simpa using hok [] a as rfl
    obtain ⟨heq, hnext⟩ := hstep pre a s t hR ha
    rw [replies, replies, heq, ih hnext fun mid b post h => ?_]
    have := hok (a :: mid) b post (by rw [h, List.cons_append])
    rwa [List.append_assoc, List.singleton_append]

end Replies

end Runs
