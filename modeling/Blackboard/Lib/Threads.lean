import Mathlib.Logic.Function.Basic
import Blackboard.Lib.Runs

/-! Programs that share a state, and a rely-guarantee proof rule for them. A program does one
atomic action after another; `ι` is what an action meets from outside (a clock, an answer, a
failure). A system starts programs as its environment says, interleaves them in any order and
may stop any of them between two actions. A program is verified alone, against what the
others may do to the state in between (`rely`), and must keep to its own part (`guar`). -/

namespace Threads

variable {σ ι α β ε : Type}

inductive Prog (σ ι α : Type) : Type
  | ret (a : α)
  | act (f : ι → σ → σ) (next : ι → σ → Prog σ ι α)

namespace Prog

def bind : Prog σ ι α → (α → Prog σ ι β) → Prog σ ι β
  | ret a, k => k a
  | act f next, k => act f fun i s => (next i s).bind k

instance : Monad (Prog σ ι) where
  pure := ret
  bind := bind

/-- One action, with its answer. -/
def lift (f : ι → σ → α × σ) : Prog σ ι α := act (fun i s => (f i s).2) fun i s => ret (f i s).1

end Prog

/-- The terms a program is verified on. `rely` is closed under doing nothing and going on. -/
structure Contract (σ : Type) where
  inv : σ → Prop
  rely : σ → σ → Prop
  guar : σ → σ → Prop
  refl : ∀ s, rely s s
  trans : ∀ a b c, rely a b → rely b c → rely a c

/-- From `s` on, whatever the others do in between, every action of the program is one it may
do, and a result is returned only where `Q` holds of it. -/
def Meets (C : Contract σ) (Q : α → σ → Prop) : Prog σ ι α → σ → Prop
  | .ret a, s => ∀ s', C.rely s s' → C.inv s' → Q a s'
  | .act f next, s => ∀ s', C.rely s s' → C.inv s' → ∀ i,
      C.guar s' (f i s') ∧ Meets C Q (next i s') (f i s')

namespace Meets

variable {C : Contract σ} {Q Q' : α → σ → Prop} {p : Prog σ ι α} {s s' : σ}

theorem later (h : Meets C Q p s) (hr : C.rely s s') : Meets C Q p s' := by
  cases p with
  | ret a => exact fun t ht hi => h t (C.trans _ _ _ hr ht) hi
  | act f next => exact fun t ht hi => h t (C.trans _ _ _ hr ht) hi

theorem of_later (h : ∀ s', C.rely s s' → C.inv s' → Meets C Q p s') : Meets C Q p s := by
  cases p with
  | ret a => exact fun t ht hi => h t ht hi t (C.refl t) hi
  | act f next => exact fun t ht hi => h t ht hi t (C.refl t) hi

theorem mono (hQ : ∀ a s, Q a s → Q' a s) (h : Meets C Q p s) : Meets C Q' p s := by
  induction p generalizing s with
  | ret a => exact fun t ht hi => hQ a t (h t ht hi)
  | act f next ih => exact fun t ht hi i => ⟨(h t ht hi i).1, ih i t (h t ht hi i).2⟩

end Meets

/-! Programs that may fail. -/

def Ends (Q : α → σ → Prop) (E : ε → σ → Prop) : Except ε α → σ → Prop
  | .ok a, s => Q a s
  | .error e, s => E e s

/-- `Meets` for a program that returns or raises. -/
def Does (C : Contract σ) (Q : α → σ → Prop) (E : ε → σ → Prop)
    (x : ExceptT ε (Prog σ ι) α) (s : σ) : Prop :=
  Meets C (Ends Q E) x.run s

/-- The result of a program that may fail, as a value (`try`). -/
def attempt (x : ExceptT ε (Prog σ ι) α) : ExceptT ε (Prog σ ι) (Except ε α) :=
  ExceptT.mk (x.run.bind fun r => .ret (.ok r))

namespace Does

variable {C : Contract σ} {Q Q' : α → σ → Prop} {E E' : ε → σ → Prop}
  {x : ExceptT ε (Prog σ ι) α} {s s' : σ}

theorem later (h : Does C Q E x s) (hr : C.rely s s') : Does C Q E x s' := Meets.later h hr

theorem mono (hQ : ∀ a s, Q a s → Q' a s) (hE : ∀ e s, E e s → E' e s) (h : Does C Q E x s) :
    Does C Q' E' x s :=
  Meets.mono (fun r s hr => by cases r with
    | ok a => exact hQ a s hr
    | error e => exact hE e s hr) h

theorem pure {a : α} (h : ∀ s', C.rely s s' → C.inv s' → Q a s') :
    Does C Q E (Pure.pure a : ExceptT ε (Prog σ ι) α) s := h

theorem throw {e : ε} (h : ∀ s', C.rely s s' → C.inv s' → E e s') :
    Does C Q E (MonadExcept.throw e : ExceptT ε (Prog σ ι) α) s := h

theorem bind {k : α → ExceptT ε (Prog σ ι) β} {R : β → σ → Prop}
    (h : Does C (fun a t => Does C R E (k a) t) E x s) : Does C R E (x >>= k) s := by
  have hb : ∀ (p : Prog σ ι (Except ε α)) (s : σ), Meets C (Ends (fun a t => Does C R E (k a) t) E) p s →
      Meets C (Ends R E) (p.bind (ExceptT.bindCont k)) s := by
    intro p
    induction p with
    | ret r =>
      intro s h
      cases r with
      | ok a => exact Meets.of_later h
      | error e => exact h
    | act f next ih => exact fun s h t ht hi i => ⟨(h t ht hi i).1, ih i t _ (h t ht hi i).2⟩
  exact hb x.run s h

/-- One action that returns or raises. -/
theorem lift {f : ι → σ → Except ε α × σ}
    (h : ∀ s', C.rely s s' → C.inv s' → ∀ i, C.guar s' (f i s').2 ∧
      ∀ t, C.rely (f i s').2 t → C.inv t → Ends Q E (f i s').1 t) :
    Does C Q E (ExceptT.mk (Prog.lift f)) s := h

theorem attempt {F : ε → σ → Prop} (h : Does C Q E x s) :
    Does C (fun r t => Ends Q E r t) F (Threads.attempt x) s := by
  have ha : ∀ (p : Prog σ ι (Except ε α)) (s : σ), Meets C (Ends Q E) p s →
      Meets C (Ends (fun r t => Ends Q E r t) F) (p.bind fun r => .ret (.ok r)) s := by
    intro p
    induction p with
    | ret r => exact fun s h => h
    | act f next ih => exact fun s h t ht hi i => ⟨(h t ht hi i).1, ih i t _ (h t ht hi i).2⟩
  exact ha x.run s h

end Does

/-! What a program can come to, whatever it meets and whatever the others do meanwhile. -/

def Prog.Returns : Prog σ ι α → α → Prop
  | .ret a, b => a = b
  | .act _ next, b => ∃ i s, (next i s).Returns b

theorem Prog.returns_bind {p : Prog σ ι α} {k : α → Prog σ ι β} {b : β} (h : (p.bind k).Returns b) :
    ∃ a, p.Returns a ∧ (k a).Returns b := by
  induction p with
  | ret a => exact ⟨a, rfl, h⟩
  | act f next ih =>
    obtain ⟨i, s, h⟩ := h
    obtain ⟨a, ha, hk⟩ := ih i s h
    exact ⟨a, ⟨i, s, ha⟩, hk⟩

def Yields (x : ExceptT ε (Prog σ ι) α) (a : α) : Prop := x.run.Returns (.ok a)

namespace Yields

theorem pure {a b : α} (h : Yields (Pure.pure a : ExceptT ε (Prog σ ι) α) b) : a = b := Except.ok.inj h

theorem bind {x : ExceptT ε (Prog σ ι) α} {k : α → ExceptT ε (Prog σ ι) β} {b : β} (h : Yields (x >>= k) b) :
    ∃ a, Yields x a ∧ Yields (k a) b := by
  obtain ⟨r, hr, hk⟩ := Prog.returns_bind (k := ExceptT.bindCont k) h
  cases r with
  | ok a => exact ⟨a, hr, hk⟩
  | error e => cases hk

end Yields

/-! Systems of programs. -/

structure System (κ σ ι ε ρ : Type) where
  init : σ
  /-- What happens outside the programs; it may start one. -/
  env : ε → σ → Option (σ × Option (κ × Prog σ ι ρ))

inductive Thread (σ ι ρ : Type)
  | live (p : Prog σ ι ρ)
  | dead

structure Config (κ σ ι ρ : Type) where
  shared : σ
  threads : κ → Option (Thread σ ι ρ)

inductive Choice (κ ι ε : Type)
  | env (e : ε)
  | act (k : κ) (i : ι)
  | kill (k : κ)

variable {κ ρ : Type}

namespace System

def start (S : System κ σ ι ε ρ) : Config κ σ ι ρ := ⟨S.init, fun _ => none⟩

/-- The key of a program is used once. -/
def step [DecidableEq κ] (S : System κ σ ι ε ρ) (c : Config κ σ ι ρ) : Choice κ ι ε → Option (Config κ σ ι ρ)
  | .env e => (S.env e c.shared).bind fun (s, started) =>
      match started with
      | none => some { c with shared := s }
      | some (k, p) =>
        if (c.threads k).isSome then none
        else some ⟨s, Function.update c.threads k (some (.live p))⟩
  | .act k i =>
      match c.threads k with
      | some (.live (.act f next)) =>
        some ⟨f i c.shared, Function.update c.threads k (some (.live (next i c.shared)))⟩
      | _ => none
  | .kill k =>
      match c.threads k with
      | some (.live (.act _ _)) => some { c with threads := Function.update c.threads k (some .dead) }
      | _ => none

theorem act_live [DecidableEq κ] {S : System κ σ ι ε ρ} {c c' : Config κ σ ι ρ} {k : κ} {i : ι}
    (hs : S.step c (.act k i) = some c') : ∃ p, c.threads k = some (.live p) := by
  simp only [step] at hs
  split at hs
  · exact ⟨_, by assumption⟩
  · cases hs

/-- A program that is live was live before and has not acted, or has just been started, or has just acted. -/
theorem live_cases [DecidableEq κ] {S : System κ σ ι ε ρ} {c c' : Config κ σ ι ρ} {ch : Choice κ ι ε} {k : κ}
    {p : Prog σ ι ρ} (hs : S.step c ch = some c') (hl : c'.threads k = some (.live p)) :
    (c.threads k = some (.live p) ∧ ∀ i, ch ≠ .act k i) ∨
      (∃ e, ch = .env e ∧ S.env e c.shared = some (c'.shared, some (k, p))) ∨
      ∃ i f next, ch = .act k i ∧ c.threads k = some (.live (.act f next)) ∧ p = next i c.shared := by
  cases ch with
  | env e =>
    obtain ⟨⟨s, started⟩, he, hs⟩ := Option.bind_eq_some_iff.mp hs
    cases started with
    | none =>
      obtain rfl := Option.some.inj hs
      exact Or.inl ⟨hl, fun i => by simp⟩
    | some x =>
      obtain ⟨j, q⟩ := x
      dsimp only at hs
      split at hs
      · cases hs
      obtain rfl := Option.some.inj hs
      by_cases hjk : k = j
      · subst hjk
        simp only [Function.update_self, Option.some.injEq, Thread.live.injEq] at hl
        exact Or.inr (Or.inl ⟨e, rfl, hl ▸ he⟩)
      · simp only [Function.update_of_ne hjk] at hl
        exact Or.inl ⟨hl, fun i => by simp⟩
  | act j i =>
    simp only [step] at hs
    split at hs
    · rename_i f next hj
      obtain rfl := Option.some.inj hs
      by_cases hjk : k = j
      · subst hjk
        simp only [Function.update_self, Option.some.injEq, Thread.live.injEq] at hl
        exact Or.inr (Or.inr ⟨i, f, next, rfl, hj, hl.symm⟩)
      · simp only [Function.update_of_ne hjk] at hl
        exact Or.inl ⟨hl, fun i' he => hjk (by cases he; rfl)⟩
    · cases hs
  | kill j =>
    simp only [step] at hs
    split at hs
    · obtain rfl := Option.some.inj hs
      by_cases hjk : k = j
      · subst hjk
        simp at hl
      · simp only [Function.update_of_ne hjk] at hl
        exact Or.inl ⟨hl, fun i => by simp⟩
    · cases hs

theorem live_step [DecidableEq κ] {S : System κ σ ι ε ρ} {c c' : Config κ σ ι ρ} {ch : Choice κ ι ε} {k : κ}
    (hs : S.step c ch = some c') (hl : ∃ p, c'.threads k = some (.live p)) :
    (∃ p, c.threads k = some (.live p)) ∨ ∃ e p, ch = .env e ∧ S.env e c.shared = some (c'.shared, some (k, p)) := by
  obtain ⟨q, hq⟩ := hl
  rcases live_cases hs hq with ⟨h, -⟩ | ⟨e, h⟩ | ⟨i, f, next, -, h, -⟩
  · exact Or.inl ⟨q, h⟩
  · exact Or.inr ⟨e, q, h⟩
  · exact Or.inl ⟨_, h⟩

end System

/-- The proof obligations of a system: one invariant, what each program may do and rely on,
and what its result means. `fresh` is what holds for a key until its program starts. -/
structure Protocol (S : System κ σ ι ε ρ) where
  inv : σ → Prop
  rely : κ → σ → σ → Prop
  guar : κ → σ → σ → Prop
  post : κ → ρ → σ → Prop
  fresh : κ → σ → Prop
  refl : ∀ k s, rely k s s
  trans : ∀ k a b c, rely k a b → rely k b c → rely k a c
  init : inv S.init
  unused : ∀ k, fresh k S.init
  unused_later : ∀ k s s', fresh k s → rely k s s' → fresh k s'
  keeps : ∀ k s s', inv s → guar k s s' → inv s'
  apart : ∀ k j s s', j ≠ k → inv s → guar k s s' → rely j s s'
  env_keeps : ∀ e s s' started, inv s → S.env e s = some (s', started) → inv s'
  env_apart : ∀ e s s' started j, inv s → S.env e s = some (s', started) → rely j s s'
  starts : ∀ e s s' k p, inv s → S.env e s = some (s', some (k, p)) → fresh k s' →
    Meets ⟨inv, rely k, guar k, refl k, trans k⟩ (post k) p s'

namespace Protocol

variable {S : System κ σ ι ε ρ} (P : Protocol S)

def contract (k : κ) : Contract σ := ⟨P.inv, P.rely k, P.guar k, P.refl k, P.trans k⟩

structure Good (c : Config κ σ ι ρ) : Prop where
  inv : P.inv c.shared
  meets : ∀ k p, c.threads k = some (.live p) → Meets (P.contract k) (P.post k) p c.shared
  fresh : ∀ k, c.threads k = none → P.fresh k c.shared

variable {P}

theorem Good.start : P.Good S.start := ⟨P.init, fun _ _ h => (by cases h), fun k _ => P.unused k⟩

/-- What the action of a program does is within its guarantee. -/
theorem Good.guar [DecidableEq κ] {c c' : Config κ σ ι ρ} {k : κ} {i : ι} (h : P.Good c)
    (hs : S.step c (.act k i) = some c') : P.guar k c.shared c'.shared := by
  simp only [System.step] at hs
  split at hs
  · rename_i f next hk
    obtain rfl := Option.some.inj hs
    exact (h.meets k _ hk c.shared (P.refl k _) h.inv i).1
  · cases hs

theorem Good.step [DecidableEq κ] {c c' : Config κ σ ι ρ} {ch : Choice κ ι ε} (h : P.Good c)
    (hs : S.step c ch = some c') : P.Good c' := by
  cases ch with
  | env e =>
    obtain ⟨⟨s, started⟩, he, hs⟩ := Option.bind_eq_some_iff.mp hs
    have hinv := P.env_keeps e _ _ _ h.inv he
    have hkeep : ∀ j p, c.threads j = some (.live p) → Meets (P.contract j) (P.post j) p s :=
      fun j p hj => (h.meets j p hj).later (P.env_apart e _ _ _ j h.inv he)
    have hfresh : ∀ j, c.threads j = none → P.fresh j s :=
      fun j hj => P.unused_later j _ _ (h.fresh j hj) (P.env_apart e _ _ _ j h.inv he)
    cases started with
    | none =>
      obtain rfl := Option.some.inj hs
      exact ⟨hinv, hkeep, hfresh⟩
    | some x =>
      obtain ⟨k, p⟩ := x
      dsimp only at hs
      split at hs
      · cases hs
      rename_i hunused
      obtain rfl := Option.some.inj hs
      refine ⟨hinv, fun j q hj => ?_, fun j hj => ?_⟩
      · by_cases hjk : j = k
        · subst hjk
          simp only [Function.update_self, Option.some.injEq, Thread.live.injEq] at hj
          subst hj
          exact P.starts e _ _ _ _ h.inv he (hfresh j (by simpa using hunused))
        · simp only [Function.update_of_ne hjk] at hj
          exact hkeep j q hj
      · by_cases hjk : j = k
        · subst hjk
          simp at hj
        · simp only [Function.update_of_ne hjk] at hj
          exact hfresh j hj
  | act k i =>
    have hg := h.guar hs
    simp only [System.step] at hs
    split at hs
    · rename_i f next hk
      obtain rfl := Option.some.inj hs
      refine ⟨P.keeps k _ _ h.inv hg, fun j q hj => ?_, fun j hj => ?_⟩
      · by_cases hjk : j = k
        · subst hjk
          simp only [Function.update_self, Option.some.injEq, Thread.live.injEq] at hj
          subst hj
          exact (h.meets j _ hk c.shared (P.refl j _) h.inv i).2
        · simp only [Function.update_of_ne hjk] at hj
          exact (h.meets j q hj).later (P.apart k j _ _ hjk h.inv hg)
      · by_cases hjk : j = k
        · subst hjk
          simp at hj
        · simp only [Function.update_of_ne hjk] at hj
          exact P.unused_later j _ _ (h.fresh j hj) (P.apart k j _ _ hjk h.inv hg)
    · cases hs
  | kill k =>
    simp only [System.step] at hs
    split at hs
    · obtain rfl := Option.some.inj hs
      refine ⟨h.inv, fun j q hj => ?_, fun j hj => ?_⟩ <;> by_cases hjk : j = k
      · subst hjk
        simp at hj
      · simp only [Function.update_of_ne hjk] at hj
        exact h.meets j q hj
      · subst hjk
        simp at hj
      · simp only [Function.update_of_ne hjk] at hj
        exact h.fresh j hj
    · cases hs

theorem good_of_run [DecidableEq κ] {c : Config κ σ ι ρ} {chs : List (Choice κ ι ε)}
    (h : Runs.run S.step S.start chs = some c) : P.Good c :=
  Runs.invariant (P := P.Good) (fun _ _ _ hg hs => hg.step hs) h .start

/-- A result that was returned has its meaning in every state after. -/
theorem Good.returned {c : Config κ σ ι ρ} {k : κ} {r : ρ} (h : P.Good c)
    (hk : c.threads k = some (.live (.ret r))) : P.post k r c.shared :=
  h.meets k _ hk c.shared (P.refl k _) h.inv

end Protocol

end Threads
