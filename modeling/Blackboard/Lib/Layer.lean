import Blackboard.Lib.Threads

/-! A further layer over a protocol: another invariant of the system, what the programs rely on for it, and what each
of their actions promises. What the first layer has proved of a state can be used in the second. -/

namespace Threads

variable {κ σ ι α β ε ρ : Type}

/-! Programs every action of which is within `G`, wherever it starts from. -/

def Always (G : σ → σ → Prop) : Prog σ ι α → Prop
  | .ret _ => True
  | .act f next => ∀ i s, G s (f i s) ∧ Always G (next i s)

theorem Always.meets {C : Contract σ} {p : Prog σ ι α} (h : Always C.guar p) (s : σ) :
    Meets C (fun _ _ => True) p s := by
  induction p generalizing s with
  | ret a => exact fun _ _ _ => trivial
  | act f next ih => exact fun t _ _ i => ⟨(h i t).1, ih i t (h i t).2 _⟩

theorem Always.mono {G G' : σ → σ → Prop} {p : Prog σ ι α} (hG : ∀ s t, G s t → G' s t) (h : Always G p) :
    Always G' p := by
  induction p with
  | ret a => trivial
  | act f next ih => exact fun i s => ⟨hG _ _ (h i s).1, ih i s (h i s).2⟩

/-- `Always` for a program that returns or raises. -/
def Keeps (G : σ → σ → Prop) (x : ExceptT ε (Prog σ ι) α) : Prop := Always G x.run

namespace Keeps

variable {G : σ → σ → Prop} {x : ExceptT ε (Prog σ ι) α}

theorem pure (a : α) : Keeps G (Pure.pure a : ExceptT ε (Prog σ ι) α) := trivial

theorem throw (e : ε) : Keeps G (MonadExcept.throw e : ExceptT ε (Prog σ ι) α) := trivial

theorem throw_bind (e : ε) (k : α → ExceptT ε (Prog σ ι) β) :
    Keeps G ((MonadExcept.throw e : ExceptT ε (Prog σ ι) α) >>= k) := trivial

theorem lift {f : ι → σ → Except ε α × σ} (h : ∀ i s, G s (f i s).2) : Keeps G (ExceptT.mk (Prog.lift f)) :=
  fun i s => ⟨h i s, trivial⟩

theorem bind {k : α → ExceptT ε (Prog σ ι) β} (h : Keeps G x) (hk : ∀ a, Keeps G (k a)) : Keeps G (x >>= k) := by
  have hb : ∀ p : Prog σ ι (Except ε α), Always G p → Always G (p.bind (ExceptT.bindCont k)) := by
    intro p
    induction p with
    | ret r =>
      intro _
      cases r with
      | ok a => exact hk a
      | error e => exact trivial
    | act f next ih => exact fun h i s => ⟨(h i s).1, ih i s (h i s).2⟩
  exact hb x.run h

theorem attempt (h : Keeps G x) : Keeps G (Threads.attempt x) := by
  have ha : ∀ p : Prog σ ι (Except ε α), Always G p →
      Always G (p.bind fun r => .ret (.ok r : Except ε (Except ε α))) := by
    intro p
    induction p with
    | ret r => exact fun _ => trivial
    | act f next ih => exact fun h i s => ⟨(h i s).1, ih i s (h i s).2⟩
  exact ha x.run h

theorem does {C : Contract σ} (h : Keeps C.guar x) (s : σ) : Does C (fun _ _ => True) (fun _ _ => True) x s := by
  refine Meets.mono (fun r _ _ => ?_) (Always.meets h s)
  cases r with
  | ok a => trivial
  | error e => trivial

end Keeps

/-! What is known of a state, and outlasts what the others and the program do to it, is known after a part of the
program as before. -/

structure Lasting (C : Contract σ) (K : σ → Prop) : Prop where
  rely : ∀ s t, C.rely s t → K s → K t
  guar : ∀ s t, C.guar s t → K s → K t

theorem Meets.frame {C : Contract σ} {Q : α → σ → Prop} {K : σ → Prop} {p : Prog σ ι α} {s : σ} (hK : Lasting C K)
    (h : Meets C Q p s) (hs : K s) : Meets C (fun a t => Q a t ∧ p.Returns a ∧ K t) p s := by
  induction p generalizing s with
  | ret a => exact fun t ht hi => ⟨h t ht hi, rfl, hK.rely s t ht hs⟩
  | act f next ih =>
    intro t ht hi i
    obtain ⟨hg, hn⟩ := h t ht hi i
    refine ⟨hg, Meets.mono (fun a u ha => ⟨ha.1, ⟨i, t, ha.2.1⟩, ha.2.2⟩) (ih i t hn ?_)⟩
    exact hK.guar _ _ hg (hK.rely s t ht hs)

/-- What is known of the states tells more of the actions. -/
theorem Meets.strengthen {C D : Contract σ} {Q : α → σ → Prop} {K : σ → Prop} {p : Prog σ ι α} {s : σ}
    (hK : Lasting C K) (hinv : ∀ s, D.inv s → C.inv s) (hrely : ∀ s t, D.rely s t → C.rely s t)
    (hguar : ∀ s t, C.inv s → K s → C.guar s t → D.guar s t) (h : Meets C Q p s) (hs : K s) : Meets D Q p s := by
  induction p generalizing s with
  | ret a => exact fun t ht hi => h t (hrely s t ht) (hinv t hi)
  | act f next ih =>
    intro t ht hi i
    obtain ⟨hg, hn⟩ := h t (hrely s t ht) (hinv t hi) i
    have ht' := hK.rely s t (hrely s t ht) hs
    exact ⟨hguar t _ (hinv t hi) ht' hg, ih i t hn (hK.guar _ _ hg ht')⟩

/-! The layer. -/

structure Layer {S : System κ σ ι ε ρ} (P : Protocol S) where
  /-- What may happen outside the programs. -/
  allowed : ε → Prop
  inv : σ → Prop
  rely : σ → σ → Prop
  guar : κ → σ → σ → Prop
  refl : ∀ s, rely s s
  trans : ∀ a b c, rely a b → rely b c → rely a c
  init : inv S.init
  keeps : ∀ k s s', P.inv s → inv s → P.guar k s s' → guar k s s' → inv s' ∧ rely s s'
  env_keeps : ∀ e s s' started, allowed e → P.inv s → inv s → S.env e s = some (s', started) → inv s' ∧ rely s s'
  starts : ∀ e s s' k p, allowed e → S.env e s = some (s', some (k, p)) →
    Meets ⟨fun s => P.inv s ∧ inv s, fun s t => P.rely k s t ∧ rely s t, guar k, fun s => ⟨P.refl k s, refl s⟩,
      fun a b c h h' => ⟨P.trans k a b c h.1 h'.1, trans a b c h.2 h'.2⟩⟩ (fun _ _ => True) p s'

namespace Layer

variable {S : System κ σ ι ε ρ} {P : Protocol S} (L : Layer P)

def contract (k : κ) : Contract σ :=
  ⟨fun s => P.inv s ∧ L.inv s, fun s t => P.rely k s t ∧ L.rely s t, L.guar k, fun s => ⟨P.refl k s, L.refl s⟩,
    fun a b c h h' => ⟨P.trans k a b c h.1 h'.1, L.trans a b c h.2 h'.2⟩⟩

/-- Whether a step of the system is one that the layer allows. -/
def Allows : Choice κ ι ε → Prop
  | .env e => L.allowed e
  | _ => True

structure Good (c : Config κ σ ι ρ) : Prop where
  base : P.Good c
  inv : L.inv c.shared
  meets : ∀ k p, c.threads k = some (.live p) → Meets (L.contract k) (fun _ _ => True) p c.shared

variable {L}

theorem Good.start : L.Good S.start := ⟨.start, L.init, fun _ _ h => (by cases h)⟩

theorem Good.step [DecidableEq κ] {c c' : Config κ σ ι ρ} {ch : Choice κ ι ε} (h : L.Good c) (hok : L.Allows ch)
    (hs : S.step c ch = some c') : L.Good c' := by
  have hbase := h.base.step hs
  cases ch with
  | env e =>
    obtain ⟨⟨s, started⟩, he, hs⟩ := Option.bind_eq_some_iff.mp hs
    obtain ⟨hinv, hrely⟩ := L.env_keeps e _ _ _ hok h.base.inv h.inv he
    have hkeep : ∀ j p, c.threads j = some (.live p) → Meets (L.contract j) (fun _ _ => True) p s :=
      fun j p hj => (h.meets j p hj).later ⟨P.env_apart e _ _ _ j h.base.inv he, hrely⟩
    cases started with
    | none =>
      obtain rfl := Option.some.inj hs
      exact ⟨hbase, hinv, hkeep⟩
    | some x =>
      obtain ⟨k, p⟩ := x
      dsimp only at hs
      split at hs
      · cases hs
      obtain rfl := Option.some.inj hs
      refine ⟨hbase, hinv, fun j q hj => ?_⟩
      by_cases hjk : j = k
      · subst hjk
        simp only [Function.update_self, Option.some.injEq, Thread.live.injEq] at hj
        subst hj
        exact L.starts e _ _ _ _ hok he
      · simp only [Function.update_of_ne hjk] at hj
        exact hkeep j q hj
  | act k i =>
    have hg := h.base.guar hs
    simp only [System.step] at hs
    split at hs
    · rename_i f next hk
      obtain rfl := Option.some.inj hs
      have hstep := h.meets k _ hk c.shared ((L.contract k).refl _) ⟨h.base.inv, h.inv⟩ i
      obtain ⟨hinv, hrely⟩ := L.keeps k _ _ h.base.inv h.inv hg hstep.1
      refine ⟨hbase, hinv, fun j q hj => ?_⟩
      by_cases hjk : j = k
      · subst hjk
        simp only [Function.update_self, Option.some.injEq, Thread.live.injEq] at hj
        subst hj
        exact hstep.2
      · simp only [Function.update_of_ne hjk] at hj
        exact (h.meets j q hj).later ⟨P.apart k j _ _ hjk h.base.inv hg, hrely⟩
    · cases hs
  | kill k =>
    simp only [System.step] at hs
    split at hs
    · obtain rfl := Option.some.inj hs
      refine ⟨hbase, h.inv, fun j q hj => ?_⟩
      by_cases hjk : j = k
      · subst hjk
        simp at hj
      · simp only [Function.update_of_ne hjk] at hj
        exact h.meets j q hj
    · cases hs

/-- What a program of the system promises of each of its actions. -/
theorem Good.guar [DecidableEq κ] {c c' : Config κ σ ι ρ} {k : κ} {i : ι} (h : L.Good c)
    (hs : S.step c (.act k i) = some c') :
    L.guar k c.shared c'.shared := by
  simp only [System.step] at hs
  split at hs
  · rename_i f next hk
    obtain rfl := Option.some.inj hs
    exact (h.meets k _ hk c.shared ((L.contract k).refl _) ⟨h.base.inv, h.inv⟩ i).1
  · cases hs

theorem good_of_run [DecidableEq κ] {c : Config κ σ ι ρ} {chs : List (Choice κ ι ε)}
    (h : Runs.run S.step S.start chs = some c) (hok : ∀ ch ∈ chs, L.Allows ch) : L.Good c :=
  Runs.invariant_under (K := fun _ ch => L.Allows ch) (P := L.Good) (fun _ _ _ hg hok hs => hg.step hok hs) h
    (Runs.admits_of_forall (fun ch hch _ => hok ch hch) _) .start

end Layer

end Threads
