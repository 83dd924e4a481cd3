import Mathlib.Data.List.Basic
import Mathlib.Data.List.Nodup
import Mathlib.Data.List.Range

/-! A versioned object and the journal of its moves: `Of es s v` says that the entries `es`
lead from the start state to `s` along allowed moves, one version each, and that `v` is the
version they end at. -/

namespace Journal

structure Entry (S : Type) where
  src : S
  dst : S
  version : ℕ
deriving DecidableEq, Repr

variable {S : Type}

inductive Of (allowed : S → S → Prop) (start : S) : List (Entry S) → S → ℕ → Prop
  | nil : Of allowed start [] start 1
  | snoc {es : List (Entry S)} {s t : S} {v : ℕ} : Of allowed start es s v → allowed s t →
      Of allowed start (es ++ [⟨s, t, v + 1⟩]) t (v + 1)

variable {allowed : S → S → Prop} {start s : S} {es : List (Entry S)} {v : ℕ}

theorem Of.version_eq (h : Of allowed start es s v) : v = 1 + es.length := by
  induction h with
  | nil => rfl
  | snoc _ _ ih => rw [ih]; simp; omega

theorem Of.versions (h : Of allowed start es s v) :
    es.map Entry.version = List.range' 2 es.length := by
  induction h with
  | nil => rfl
  | snoc h _ ih =>
    rw [List.map_append, ih, List.length_append, List.length_singleton, ← List.range'_append_1,
      h.version_eq]
    simp
    omega

theorem Of.nodup (h : Of allowed start es s v) : (es.map Entry.version).Nodup := by
  rw [h.versions]
  exact List.nodup_range'

/-- Every move starts where the one before it ended: the column of sources followed by the
present state is the start state followed by the column of targets. -/
theorem Of.path (h : Of allowed start es s v) :
    es.map Entry.src ++ [s] = start :: es.map Entry.dst := by
  induction h with
  | nil => rfl
  | snoc _ _ ih =>
    rw [List.map_append, List.map_append, ← List.cons_append, ← ih]
    simp

theorem Of.allowed_mem (h : Of allowed start es s v) : ∀ e ∈ es, allowed e.src e.dst := by
  induction h with
  | nil => simp
  | snoc _ hst ih =>
    intro e he
    rcases List.mem_append.mp he with he | he
    · exact ih e he
    · rw [List.mem_singleton.mp he]
      exact hst

/-- A journal that goes on past a state nothing leaves does not go on. -/
theorem Of.stuck {fs : List (Entry S)} {t : S} {w : ℕ} (h : Of allowed start es s v)
    (h' : Of allowed start (es ++ fs) t w) (hs : ∀ u, ¬ allowed s u) : fs = [] ∧ t = s := by
  have hp := h.path
  have hp' := h'.path
  cases fs with
  | nil =>
    rw [List.append_nil, ← hp] at hp'
    exact ⟨rfl, (List.singleton_inj.mp (List.append_cancel_left hp'))⟩
  | cons f fs =>
    rw [List.map_append, List.map_append, ← List.cons_append, ← hp] at hp'
    have hsrc : f.src = s := by
      rw [List.append_assoc, List.append_assoc] at hp'
      have := List.append_cancel_left hp'
      simp only [List.map_cons, List.cons_append, List.nil_append, List.cons.injEq] at this
      exact this.1
    exact absurd (hsrc ▸ h'.allowed_mem f (by simp)) (hs _)

end Journal
