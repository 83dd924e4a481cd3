import Mathlib.Tactic.Linarith
import Blackboard.Lib.Runs
import Blackboard.Spec.LiveSource

/-! The circuit breaker over any interleaving of calls. While it is open, an attempt is let through
only a cooldown after the failure that opened it. Between that attempt and the record of its outcome
nothing marks the trial, so one probe at a time takes that no attempt begins there. -/

namespace Blackboard.Tools

def Mark.time : Mark → Time
  | .passed _ now => now
  | .refused _ now => now
  | .opened now => now
  | .succeeded now => now

def Mark.passedAt : Mark → Option Time
  | .passed _ now => some now
  | _ => none

/-- When new attempts were let through. -/
def passes (log : List Mark) : List Time := log.filterMap Mark.passedAt

def NoSuccess (log : List Mark) : Prop := ∀ now, Mark.succeeded now ∉ log

/-- From an opening to the next success, the attempts that are let through are a cooldown apart, and
the first is one after the opening. -/
def OneProbe (cooldown : Time) (log : List Mark) : Prop :=
  ∀ pre opened mid post, log = pre ++ Mark.opened opened :: (mid ++ post) → NoSuccess mid →
    (opened :: passes mid).Pairwise fun a b => a + cooldown ≤ b

/-- A trial was let through, and no success or failure has been recorded since. -/
def Breaker.halfOpen (b : Breaker) : Bool := b.threshold ≤ b.failures && b.openedAt.isNone

/-- No attempt begins while the breaker is half open. -/
def OneTrial (s : LiveBackend) : LiveEvent → Prop
  | .attempt .. => s.breaker.halfOpen = false
  | .outcome .. => True

instance (s : LiveBackend) : ∀ e, Decidable (OneTrial s e)
  | .attempt .. => inferInstanceAs (Decidable (s.breaker.halfOpen = false))
  | .outcome .. => isTrue trivial

def LiveBackend.init (threshold : ℕ) (cooldown : Time) : LiveBackend := { breaker := { threshold, cooldown } }

/-- What is between an opening and the end of a log, without a success. -/
def Since (log : List Mark) (opened : Time) (mid : List Mark) : Prop :=
  ∃ pre, log = pre ++ Mark.opened opened :: mid ∧ NoSuccess mid

structure Probing (threshold : ℕ) (cooldown : Time) (s : LiveBackend) : Prop where
  settings : s.breaker.threshold = threshold ∧ s.breaker.cooldown = cooldown
  past : ∀ m ∈ s.log, m.time ≤ s.now
  shut : ∀ t, s.breaker.openedAt = some t → ∀ m ∈ s.log, (∀ call now, m ≠ .refused call now) → m.time ≤ t
  tripped : ∀ opened mid, Since s.log opened mid → threshold ≤ s.breaker.failures
  spaced : OneProbe cooldown s.log
  refused : ∀ call now, .refused call now ∈ s.log →
    ∃ e : ToolError, s.calls call = .ended (some (.error e)) ∧ e.code = "circuit_open"

theorem mem_passes {log : List Mark} {t : Time} : t ∈ passes log ↔ ∃ call, Mark.passed call t ∈ log := by
  simp only [passes, List.mem_filterMap]
  constructor
  · rintro ⟨m, hm, ht⟩
    cases m <;> simp only [Mark.passedAt, Option.some.injEq, reduceCtorEq] at ht
    exact ⟨_, ht ▸ hm⟩
  · rintro ⟨call, h⟩
    exact ⟨_, h, rfl⟩

theorem Since.snoc {log : List Mark} {m : Mark} {opened : Time} {mid : List Mark} (h : Since (log ++ [m]) opened mid) :
    (mid = [] ∧ m = .opened opened) ∨ ∃ mid', mid = mid' ++ [m] ∧ Since log opened mid' := by
  obtain ⟨pre, hlog, hno⟩ := h
  rcases List.eq_nil_or_concat mid with rfl | ⟨mid', x, rfl⟩
  · left
    exact ⟨rfl, (List.append_inj_right' hlog rfl |> List.singleton_inj.mp)⟩
  · right
    rw [List.concat_eq_append, ← List.cons_append, ← List.append_assoc] at hlog
    obtain ⟨hl, hx⟩ := List.append_inj' hlog rfl
    obtain rfl := List.singleton_inj.mp hx
    exact ⟨mid', List.concat_eq_append, pre, hl, fun now hn => hno now (by simp [hn])⟩

/-- A new mark keeps the spacing if it lets nothing through, or lets it through late enough. -/
theorem OneProbe.snoc {cooldown : Time} {log : List Mark} {m : Mark} (h : OneProbe cooldown log)
    (hm : ∀ call now, m = .passed call now → ∀ opened mid, Since log opened mid →
      ∀ t ∈ opened :: passes mid, t + cooldown ≤ now) :
    OneProbe cooldown (log ++ [m]) := by
  intro pre opened mid post hlog hno
  rcases List.eq_nil_or_concat post with rfl | ⟨post', x, rfl⟩
  · rw [List.append_nil] at hlog
    rcases Since.snoc ⟨pre, hlog, hno⟩ with ⟨rfl, -⟩ | ⟨mid', rfl, hs⟩
    · simp [passes]
    · obtain ⟨pre', hlog', hno'⟩ := hs
      have hold := h pre' opened mid' [] (by rw [List.append_nil]; exact hlog') hno'
      cases hp : m.passedAt with
      | none => simpa [passes, hp] using hold
      | some now =>
        obtain ⟨call, rfl⟩ : ∃ call, m = .passed call now := by
          cases m <;> simp only [Mark.passedAt, Option.some.injEq, reduceCtorEq] at hp
          exact ⟨_, by rw [hp]⟩
        have happ : opened :: passes (mid' ++ [.passed call now]) = (opened :: passes mid') ++ [now] := by
          simp [passes, Mark.passedAt]
        rw [happ, List.pairwise_append]
        exact ⟨hold, List.pairwise_singleton .., fun t ht u hu =>
          List.mem_singleton.mp hu ▸ hm call now rfl opened mid' ⟨pre', hlog', hno'⟩ t ht⟩
  · rw [List.concat_eq_append, ← List.append_assoc, ← List.cons_append, ← List.append_assoc] at hlog
    exact h pre opened mid post' (List.append_inj_left' hlog rfl) hno

variable {threshold retries : ℕ} {cooldown : Time} {backend : String} {s s' : LiveBackend}

/-- What happens to a call that has not ended leaves the refused ones as they are. -/
theorem Probing.refused_update (h : Probing threshold cooldown s) {call : ℕ} (hcall : ∀ r, s.calls call ≠ .ended r)
    {stage : Stage} {c : ℕ} {now : Time} (hc : .refused c now ∈ s.log) :
    ∃ e : ToolError, Function.update s.calls call stage c = .ended (some (.error e)) ∧ e.code = "circuit_open" := by
  obtain ⟨e, he, hcode⟩ := h.refused c now hc
  have hne : c ≠ call := fun heq => hcall _ (heq ▸ he)
  exact ⟨e, by rw [Function.update_of_ne hne, he], hcode⟩

/-- What a check can do: refuse, let a trial through, or let through what is not in question. -/
theorem Breaker.check_cases (b : Breaker) (backend : String) (now : Time) :
    (∃ t, b.openedAt = some t ∧ b.check backend now = .error (b.circuitOpen backend)) ∨
    (∃ t, b.openedAt = some t ∧ t + b.cooldown ≤ now ∧ b.check backend now = .ok { b with openedAt := none }) ∨
    b.openedAt = none ∧ b.check backend now = .ok b := by
  unfold Breaker.check
  cases ho : b.openedAt with
  | none => exact Or.inr (Or.inr ⟨rfl, rfl⟩)
  | some t =>
    by_cases hlt : now - t < b.cooldown
    · exact Or.inl ⟨t, rfl, if_pos hlt⟩
    · exact Or.inr (Or.inl ⟨t, rfl, by linarith, if_neg hlt⟩)

theorem past_snoc {log : List Mark} {m : Mark} {old now : Time} (h : ∀ x ∈ log, x.time ≤ old) (hnow : old ≤ now)
    (hm : m.time ≤ now) : ∀ x ∈ log ++ [m], x.time ≤ now := by
  intro x hx
  rcases List.mem_append.mp hx with hx | hx
  · exact (h x hx).trans hnow
  · exact List.mem_singleton.mp hx ▸ hm

/-- A mark that opens nothing adds nothing to what is open. -/
theorem since_snoc_old {log : List Mark} {m : Mark} (hm : ∀ t, m ≠ .opened t) {opened : Time} {mid : List Mark}
    (h : Since (log ++ [m]) opened mid) : ∃ mid', Since log opened mid' := by
  rcases h.snoc with ⟨-, rfl⟩ | ⟨mid', -, hs⟩
  · exact absurd rfl (hm opened)
  · exact ⟨mid', hs⟩

theorem Probing.attempt (h : Probing threshold cooldown s) {call attempts : ℕ} {now : Time} {fetchedAt : Datetime}
    (hcall : s.calls call = .sleeping attempts) (hnow : s.now ≤ now) (hopen : s.breaker.halfOpen = false) :
    Probing threshold cooldown (s.attempt backend call attempts now fetchedAt) := by
  have hfresh : ∀ r, s.calls call ≠ .ended r := fun r hr => by rw [hcall] at hr; cases hr
  obtain ⟨hth, hcd⟩ := h.settings
  -- a mark of an attempt that was let through, the breaker being `b` after it
  have hpass : ∀ b : Breaker, b.threshold = threshold ∧ b.cooldown = cooldown ∧ b.failures = s.breaker.failures ∧
      b.openedAt = none → (∀ opened mid, Since s.log opened mid → ∀ t ∈ opened :: passes mid, t + cooldown ≤ now) →
      Probing threshold cooldown { s with
        breaker := b, calls := Function.update s.calls call (.waiting (attempts + 1) fetchedAt), now,
        log := s.log ++ [.passed call now] } := by
    rintro b ⟨hbt, hbc, hbf, hbo⟩ hlate
    refine ⟨⟨hbt, hbc⟩, past_snoc h.past hnow le_rfl, fun t ht => ?_, fun opened mid hs => ?_, ?_, fun c t hc => ?_⟩
    · rw [hbo] at ht
      cases ht
    · obtain ⟨mid', hs'⟩ := since_snoc_old (fun t => by simp) hs
      exact hbf ▸ h.tripped opened mid' hs'
    · refine h.spaced.snoc fun c n hm => ?_
      obtain ⟨-, rfl⟩ := Mark.passed.inj hm
      exact hlate
    · exact h.refused_update hfresh (by simpa using hc)
  unfold LiveBackend.attempt
  rcases s.breaker.check_cases backend now with ⟨t1, ho, hc⟩ | ⟨t1, ho, hlate, hc⟩ | ⟨ho, hc⟩
  · rw [hc]
    refine ⟨⟨hth, hcd⟩, past_snoc h.past hnow le_rfl, fun t ht m hm hne => ?_, fun opened mid hs => ?_, ?_,
      fun c t hm => ?_⟩
    · rcases List.mem_append.mp hm with hm | hm
      · exact h.shut t ht m hm hne
      · exact absurd (List.mem_singleton.mp hm) (hne call now)
    · obtain ⟨mid', hs'⟩ := since_snoc_old (fun t => by simp) hs
      exact h.tripped opened mid' hs'
    · exact h.spaced.snoc fun c n hm => by cases hm
    · rcases List.mem_append.mp hm with hm | hm
      · exact h.refused_update hfresh hm
      · obtain ⟨rfl, -⟩ := Mark.refused.inj (List.mem_singleton.mp hm)
        exact ⟨_, Function.update_self .., rfl⟩
  · rw [hc]
    refine hpass _ ⟨hth, hcd, rfl, rfl⟩ fun opened mid hs t ht => ?_
    -- what was seen while the breaker was not open is older than its opening
    have hle : t ≤ t1 := by
      obtain ⟨pre, hlog, -⟩ := hs
      rcases List.mem_cons.mp ht with rfl | ht
      · exact h.shut t1 ho (.opened t) (by rw [hlog]; simp) (by simp)
      · obtain ⟨c, hmem⟩ := mem_passes.mp ht
        exact h.shut t1 ho (.passed c t) (by rw [hlog]; simp [hmem]) (by simp)
    rw [hcd] at hlate
    linarith
  · rw [hc]
    refine hpass _ ⟨hth, hcd, rfl, ho⟩ fun opened mid hs => ?_
    -- the breaker is not half open, so it has not opened since the last success
    have htrip := h.tripped opened mid hs
    rw [Breaker.halfOpen, ho, hth] at hopen
    simp at hopen
    omega

theorem Probing.failed (h : Probing threshold cooldown s) {call attempt : ℕ} {now : Time} {fetchedAt : Datetime}
    (hcall : s.calls call = .waiting attempt fetchedAt) (hnow : s.now ≤ now) (e : ToolError) :
    Probing threshold cooldown (s.failed retries call attempt now e) := by
  have hfresh : ∀ r, s.calls call ≠ .ended r := fun r hr => by rw [hcall] at hr; cases hr
  obtain ⟨hth, hcd⟩ := h.settings
  have hpast : ∀ m ∈ s.log, m.time ≤ now := fun m hm => (h.past m hm).trans hnow
  unfold LiveBackend.failed
  by_cases hr : e.retryable = true
  · by_cases ho : s.breaker.opens = true
    · simp only [hr, ho, Breaker.record, if_true, Bool.and_self, Bool.false_eq_true, if_false]
      refine ⟨⟨hth, hcd⟩, past_snoc h.past hnow le_rfl, fun t ht m hm _ => ?_, fun opened mid hs => ?_, ?_,
        fun c t hm => ?_⟩
      · obtain rfl := Option.some.inj ht
        exact past_snoc h.past hnow le_rfl m hm
      · rw [Breaker.opens, hth] at ho
        simpa using ho
      · exact h.spaced.snoc fun c n hm => by cases hm
      · exact h.refused_update hfresh (by simpa using hm)
    · simp only [hr, ho, Breaker.record, if_true, Bool.and_false, Bool.false_eq_true, if_false, List.append_nil]
      refine ⟨⟨hth, hcd⟩, hpast, h.shut, fun opened mid hs => ?_, h.spaced, fun c t hm => h.refused_update hfresh hm⟩
      have := h.tripped opened mid hs
      show threshold ≤ s.breaker.failures + 1
      omega
  · simp only [hr, Bool.false_and, Bool.false_eq_true, if_false, List.append_nil]
    exact ⟨⟨hth, hcd⟩, hpast, h.shut, h.tripped, h.spaced, fun c t hm => h.refused_update hfresh hm⟩

theorem Probing.outcome (h : Probing threshold cooldown s) {call attempt : ℕ} {now : Time} {fetchedAt : Datetime}
    (hcall : s.calls call = .waiting attempt fetchedAt) (hnow : s.now ≤ now) (o : Outcome) :
    Probing threshold cooldown (s.outcome retries call attempt now fetchedAt o) := by
  have hfresh : ∀ r, s.calls call ≠ .ended r := fun r hr => by rw [hcall] at hr; cases hr
  cases o with
  | raw v =>
    refine ⟨h.settings, past_snoc h.past hnow le_rfl, (fun t ht => by cases ht), fun opened mid hs => ?_, ?_,
      fun c t hm => ?_⟩
    · rcases hs.snoc with ⟨-, hm⟩ | ⟨mid', rfl, -⟩
      · cases hm
      · obtain ⟨pre, -, hno⟩ := hs
        exact absurd (by simp) (hno now)
    · exact h.spaced.snoc fun c n hm => by cases hm
    · exact h.refused_update hfresh (by simpa [LiveBackend.outcome] using hm)
  | timedOut tool seconds => exact h.failed hcall hnow _
  | error e => exact h.failed hcall hnow e
  | raised =>
    exact ⟨h.settings, fun m hm => (h.past m hm).trans hnow, h.shut, h.tripped, h.spaced,
      fun c t hm => h.refused_update hfresh hm⟩

theorem Probing.step (h : Probing threshold cooldown s) {e : LiveEvent} (hok : OneTrial s e)
    (hs : s.step retries backend e = some s') : Probing threshold cooldown s' := by
  unfold LiveBackend.step at hs
  split_ifs at hs with hnow
  cases e with
  | attempt call now fetchedAt =>
    cases hcall : s.calls call <;> simp only [hcall, reduceCtorEq, Option.some.injEq] at hs
    exact hs ▸ h.attempt hcall (not_lt.mp hnow) hok
  | outcome call now o =>
    cases hcall : s.calls call <;> simp only [hcall, reduceCtorEq, Option.some.injEq] at hs
    exact hs ▸ h.outcome hcall (not_lt.mp hnow) o

theorem Probing.init (threshold : ℕ) (cooldown : Time) : Probing threshold cooldown (.init threshold cooldown) where
  settings := ⟨rfl, rfl⟩
  past m hm := absurd hm List.not_mem_nil
  shut t ht := by cases ht
  tripped opened mid hs := by
    obtain ⟨pre, hlog, -⟩ := hs
    simp [LiveBackend.init] at hlog
  spaced pre opened mid post hlog := by simp [LiveBackend.init] at hlog
  refused call now hm := absurd hm List.not_mem_nil

/-- As long as no attempt begins while the breaker is half open, one probe a cooldown is let through
from an opening to the next success, and whoever is not let through has its error at once. -/
theorem one_probe {es : List LiveEvent}
    (hrun : Runs.run (LiveBackend.step retries backend) (.init threshold cooldown) es = some s)
    (hok : Runs.Admits (LiveBackend.step retries backend) OneTrial (.init threshold cooldown) es) :
    OneProbe cooldown s.log ∧ ∀ call now, .refused call now ∈ s.log →
      ∃ e : ToolError, s.calls call = .ended (some (.error e)) ∧ e.code = "circuit_open" := by
  have h := Runs.invariant_under (P := Probing threshold cooldown)
    (fun _ _ _ hs hok hstep => hs.step hok hstep) hrun hok
    (Probing.init threshold cooldown)
  exact ⟨h.spaced, h.refused⟩

/-! Five calls that time out at once, and what follows. -/

def sampleDay : Datetime := ⟨2026, 9, 1, 12, 0, 0, 0, by decide, by decide⟩

def fiveTimeouts : List LiveEvent :=
  (List.range 5).map (fun i => .attempt i 0 sampleDay) ++
    (List.range 5).map fun i => .outcome i 10 (.timedOut "prom_query" 10)

/-- One call comes too early, the next one is the trial. -/
theorem one_probe_timeouts : ∃ s, Runs.run (LiveBackend.step 2 "prometheus") (.init 5 30)
    (fiveTimeouts ++ [.attempt 5 20 sampleDay, .attempt 6 40 sampleDay]) = some s ∧ OneProbe 30 s.log := by
  have hsome : (Runs.run (LiveBackend.step 2 "prometheus") (.init 5 30)
      (fiveTimeouts ++ [.attempt 5 20 sampleDay, .attempt 6 40 sampleDay])).isSome = true := by decide +kernel
  obtain ⟨s, hs⟩ := Option.isSome_iff_exists.mp hsome
  exact ⟨s, hs, (one_probe hs (by decide +kernel)).1⟩

/-- Two calls that come together after the cooldown are both let through. -/
theorem two_probes : ∃ s, Runs.run (LiveBackend.step 2 "prometheus") (.init 5 30)
    (fiveTimeouts ++ [.attempt 5 40 sampleDay, .attempt 6 40 sampleDay]) = some s ∧ ¬ OneProbe 30 s.log := by
  have hlog : (Runs.run (LiveBackend.step 2 "prometheus") (.init 5 30)
      (fiveTimeouts ++ [.attempt 5 40 sampleDay, .attempt 6 40 sampleDay])).map LiveBackend.log =
      some ((List.range 5).map (.passed · 0) ++ Mark.opened 10 :: [.passed 5 40, .passed 6 40]) := by decide +kernel
  obtain ⟨s, hs, hl⟩ := Option.map_eq_some_iff.mp hlog
  refine ⟨s, hs, fun h => ?_⟩
  have hgap := h _ 10 [.passed 5 40, .passed 6 40] [] hl (fun now hn => by simp at hn)
  simp [passes, Mark.passedAt] at hgap
  norm_num at hgap

end Blackboard.Tools
