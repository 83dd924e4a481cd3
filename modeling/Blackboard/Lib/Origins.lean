import Mathlib.Data.List.Induction
import Mathlib.Tactic.SplitIfs
import Blackboard.Lib.Layer

/-! Where the programs of a run come from. What a program does may depend on what it has met from outside since it was
started; `Within` says so of every action it may still take, and a run keeps track of it. -/

namespace Threads

variable {κ σ ι α β ε ρ : Type}

/-- After the inputs `M`, every action is within `G` of the inputs up to its own, and a result is within `Q` of all of
them. -/
def Within (G : List ι → σ → σ → Prop) (Q : List ι → α → Prop) : List ι → Prog σ ι α → Prop
  | M, .ret a => Q M a
  | M, .act f next => ∀ i s, G (M ++ [i]) s (f i s) ∧ Within G Q (M ++ [i]) (next i s)

namespace Within

variable {G G' : List ι → σ → σ → Prop} {Q Q' : List ι → α → Prop} {M : List ι} {p : Prog σ ι α}

theorem mono (hG : ∀ M s t, G M s t → G' M s t) (hQ : ∀ M a, Q M a → Q' M a) (h : Within G Q M p) :
    Within G' Q' M p := by
  induction p generalizing M with
  | ret a => exact hQ M a h
  | act f next ih => exact fun i s => ⟨hG _ _ _ (h i s).1, ih i s (h i s).2⟩

theorem trivial (hG : ∀ M s t, G M s t) : Within G (fun _ _ => True) M p := by
  induction p generalizing M with
  | ret a => exact True.intro
  | act f next ih => exact fun i s => ⟨hG _ _ _, ih i s⟩

/-- What is within a relation wherever it starts, is so after any inputs. -/
theorem of_always {R : σ → σ → Prop} (hR : ∀ N s t, M <+: N → R s t → G N s t) (h : Always R p) :
    Within G (fun _ _ => True) M p := by
  induction p generalizing M with
  | ret a => exact True.intro
  | act f next ih =>
    refine fun i s => ⟨hR _ _ _ (List.prefix_append _ _) (h i s).1, ih i s (fun N s t hN => ?_) (h i s).2⟩
    exact hR N s t ((List.prefix_append _ _).trans hN)

theorem always {R : σ → σ → Prop} (hR : ∀ M s t, G M s t → R s t) (h : Within G Q M p) : Always R p := by
  induction p generalizing M with
  | ret a => exact True.intro
  | act f next ih => exact fun i s => ⟨hR _ _ _ (h i s).1, ih i s (h i s).2⟩

/-- The rest of a program starts with the inputs that the first part has met. -/
theorem bind {k : α → Prog σ ι β} {R : List ι → β → Prop} (h : Within G Q M p)
    (hk : ∀ N a, M <+: N → Q N a → Within G R N (k a)) : Within G R M (p.bind k) := by
  induction p generalizing M with
  | ret a => exact hk M a (List.prefix_refl M) h
  | act f next ih =>
    exact fun i s => ⟨(h i s).1, ih i s (h i s).2 fun N a hN => hk N a ((List.prefix_append _ _).trans hN)⟩

end Within

/-- `Within` for a program that returns or raises. -/
def Stays (G : List ι → σ → σ → Prop) (Q : List ι → α → Prop) (M : List ι) (x : ExceptT ε (Prog σ ι) α) : Prop :=
  Within G (fun N r => ∀ a, r = .ok a → Q N a) M x.run

namespace Stays

variable {G : List ι → σ → σ → Prop} {Q Q' : List ι → α → Prop} {M : List ι} {x : ExceptT ε (Prog σ ι) α}

theorem pure {a : α} (h : Q M a) : Stays G Q M (Pure.pure a : ExceptT ε (Prog σ ι) α) := fun b hb => by
  cases hb
  exact h

theorem throw (e : ε) : Stays G Q M (MonadExcept.throw e : ExceptT ε (Prog σ ι) α) := fun b hb => by cases hb

theorem lift {f : ι → σ → Except ε α × σ} (hG : ∀ i s, G (M ++ [i]) s (f i s).2)
    (hQ : ∀ i s a, (f i s).1 = .ok a → Q (M ++ [i]) a) : Stays G Q M (ExceptT.mk (Prog.lift f)) :=
  fun i s => ⟨hG i s, hQ i s⟩

theorem of_keeps {R : σ → σ → Prop} (hR : ∀ N s t, M <+: N → R s t → G N s t) (h : Keeps R x) :
    Stays G (fun _ _ => True) M x :=
  Within.mono (fun _ _ _ h => h) (fun _ _ _ _ _ => True.intro) (Within.of_always hR h)

theorem keeps {R : σ → σ → Prop} (hR : ∀ N s t, G N s t → R s t) (h : Stays G Q M x) : Keeps R x := Within.always hR h

theorem bind {k : α → ExceptT ε (Prog σ ι) β} {R : List ι → β → Prop} (h : Stays G Q M x)
    (hk : ∀ N a, M <+: N → Q N a → Stays G R N (k a)) : Stays G R M (x >>= k) := by
  refine Within.bind (k := ExceptT.bindCont k) h fun N r hN hr => ?_
  cases r with
  | ok a => exact hk N a hN (hr a rfl)
  | error e => exact fun b hb => by cases hb

theorem attempt (h : Stays G Q M x) :
    Stays G (fun N r => ∀ a, r = .ok a → Q N a) M (Threads.attempt x : ExceptT ε (Prog σ ι) (Except ε α)) := by
  refine Within.bind h fun N r _ hr => ?_
  rintro s hs
  cases hs
  exact hr

end Stays

/-! What has become of a program, from the step that started it on. -/

/-- What a program has met, in the order it did. -/
def inputs [DecidableEq κ] (k : κ) : List (Choice κ ι ε) → List ι
  | [] => []
  | .act j i :: steps => if j = k then i :: inputs k steps else inputs k steps
  | _ :: steps => inputs k steps

section Inputs

variable [DecidableEq κ] {k : κ} {steps : List (Choice κ ι ε)}

theorem inputs_append (as bs : List (Choice κ ι ε)) : inputs k (as ++ bs) = inputs k as ++ inputs k bs := by
  induction as with
  | nil => rfl
  | cons a as ih =>
    cases a with
    | act j i =>
      simp only [List.cons_append, inputs, ih]
      split_ifs <;> rfl
    | env | kill => exact ih

theorem inputs_act (k : κ) (i : ι) : inputs k [(.act k i : Choice κ ι ε)] = [i] := by simp [inputs]

theorem inputs_other {ch : Choice κ ι ε} (h : ∀ i, ch ≠ .act k i) : inputs k [ch] = [] := by
  cases ch with
  | act j i =>
    have hne : j ≠ k := fun hj => h i (by rw [hj])
    simp [inputs, hne]
  | env | kill => rfl

theorem mem_inputs {i : ι} : i ∈ inputs k steps ↔ .act k i ∈ steps := by
  induction steps with
  | nil => simp [inputs]
  | cons a as ih =>
    cases a with
    | act j i' =>
      simp only [inputs, List.mem_cons, Choice.act.injEq]
      split_ifs with hj
      · simp [hj, ih]
      · simp [ih, Ne.symm hj]
    | env | kill => simp [inputs, ih]

end Inputs

/-- The run started the program `p` under the key `k` with `e`, in the state `s`, and took the steps `after` since. -/
def Origin [DecidableEq κ] (S : System κ σ ι ε ρ) (steps : List (Choice κ ι ε)) (k : κ) (e : ε) (s : Config κ σ ι ρ)
    (after : List (Choice κ ι ε)) : Prop :=
  ∃ before s' p, steps = before ++ .env e :: after ∧ Runs.run S.step S.start before = some s ∧
    S.env e s.shared = some (s', some (k, p))

theorem Origin.snoc [DecidableEq κ] {S : System κ σ ι ε ρ} {steps after : List (Choice κ ι ε)} {k : κ} {e : ε}
    {s : Config κ σ ι ρ} (h : Origin S steps k e s after) (ch : Choice κ ι ε) :
    Origin S (steps ++ [ch]) k e s (after ++ [ch]) := by
  obtain ⟨before, s', p, rfl, hrest⟩ := h
  exact ⟨before, s', p, by rw [List.append_assoc, List.cons_append], hrest⟩

/-- A step outside the programs leaves what it says. -/
theorem System.env_shared [DecidableEq κ] {S : System κ σ ι ε ρ} {c c' : Config κ σ ι ρ} {e : ε} {s : σ}
    {started : Option (κ × Prog σ ι ρ)} (he : S.env e c.shared = some (s, started)) (hs : S.step c (.env e) = some c') :
    c'.shared = s := by
  simp only [System.step, he, Option.bind_some] at hs
  split at hs
  · obtain rfl := Option.some.inj hs
    rfl
  · split_ifs at hs
    obtain rfl := Option.some.inj hs
    rfl

/-- A program that is live was started once, and has kept to what it was started with: what it may still do is within
its terms after the inputs since then. -/
theorem live_origin [DecidableEq κ] {S : System κ σ ι ε ρ} {G : ε → Config κ σ ι ρ → κ → List ι → σ → σ → Prop}
    (hstart : ∀ e s s' k p, S.env e s.shared = some (s', some (k, p)) → Within (G e s k) (fun _ _ => True) [] p)
    {steps : List (Choice κ ι ε)} {c : Config κ σ ι ρ} (h : Runs.run S.step S.start steps = some c) :
    ∀ k p, c.threads k = some (.live p) → ∃ e s after, Origin S steps k e s after ∧
      Within (G e s k) (fun _ _ => True) (inputs k after) p := by
  induction steps using List.reverseRecOn generalizing c with
  | nil =>
    obtain rfl : S.start = c := by simpa using h
    intro k p hk
    cases hk
  | append_singleton steps ch ih =>
    obtain ⟨d, hd, hstep⟩ := (Runs.run_append _).mp h
    have hstep : S.step d ch = some c := by simpa [Runs.run_cons] using hstep
    intro k p hk
    rcases System.live_cases hstep hk with ⟨hp, hch⟩ | ⟨e, rfl, he⟩ | ⟨i, f, next, rfl, hp, rfl⟩
    · obtain ⟨e, s, after, ho, hw⟩ := ih hd k p hp
      exact ⟨e, s, after ++ [ch], ho.snoc ch, by rwa [inputs_append, inputs_other hch, List.append_nil]⟩
    · exact ⟨e, d, [], ⟨steps, c.shared, p, rfl, hd, he⟩, hstart e d c.shared k p he⟩
    · obtain ⟨e, s, after, ho, hw⟩ := ih hd k _ hp
      refine ⟨e, s, after ++ [.act k i], ho.snoc _, ?_⟩
      rw [inputs_append, inputs_act]
      exact (hw i d.shared).2

/-- So is every action that a program of the run takes. -/
theorem act_origin [DecidableEq κ] {S : System κ σ ι ε ρ} {G : ε → Config κ σ ι ρ → κ → List ι → σ → σ → Prop}
    (hstart : ∀ e s s' k p, S.env e s.shared = some (s', some (k, p)) → Within (G e s k) (fun _ _ => True) [] p)
    {steps : List (Choice κ ι ε)} {c c' : Config κ σ ι ρ} {k : κ} {i : ι} (h : Runs.run S.step S.start steps = some c)
    (hs : S.step c (.act k i) = some c') : ∃ e s after, Origin S steps k e s after ∧
      G e s k (inputs k after ++ [i]) c.shared c'.shared := by
  simp only [System.step] at hs
  split at hs
  · rename_i f next hk
    obtain rfl := Option.some.inj hs
    obtain ⟨e, s, after, ho, hw⟩ := live_origin hstart h k _ hk
    exact ⟨e, s, after, ho, (hw i c.shared).1⟩
  · cases hs

end Threads
