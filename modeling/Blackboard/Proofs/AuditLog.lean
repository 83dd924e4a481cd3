import Blackboard.Lib.Digest
import Blackboard.Spec.AuditLog

/-! The audit chain under concurrency. Whoever holds the advisory lock is the only one with
rows of its own, and they go on from the committed ones; so what is committed is one chain. -/

namespace Blackboard.AuditLog

variable {sha256 : String → String}

theorem verify_eq_ok {rows : List Row} {n : ℕ} :
    verify sha256 rows = { ok := true, checked := n } ↔ (chain sha256).Linked rows ∧ n = rows.length := by
  have h : (chain sha256).scan GENESIS 0 rows = .ok n ↔ _ := HashChain.scan_eq_ok
  rw [Nat.zero_add] at h
  unfold HashChain.Linked
  rw [show (chain sha256).genesis = GENESIS from rfl, ← h]
  unfold verify
  split <;> simp_all

theorem verify_ok_iff {rows : List Row} : (verify sha256 rows).ok = true ↔ (chain sha256).Linked rows := by
  constructor
  · intro h
    refine (verify_eq_ok (n := (verify sha256 rows).checked)).mp ?_ |>.1
    unfold verify at h ⊢
    split at h
    · rfl
    · simp at h
    · simp at h
  · intro h
    rw [verify_eq_ok.mpr ⟨h, rfl⟩]

theorem lastHash_snoc {rows : List Row} {r : Row} (h : ∀ a ∈ rows, a.seq < r.seq) :
    lastHash (rows ++ [r]) = some r.hash := by
  unfold lastHash
  rw [List.argmax_concat]
  cases hm : rows.argmax Row.seq with
  | none => rfl
  | some a => simp [h a (List.argmax_mem hm)]

/-- With the rows in order, the last hash is the one the next row has to name. -/
theorem prevHash_eq_head {rows : List Row} (hsorted : rows.Pairwise fun a b => a.seq < b.seq)
    (hhex : ∀ r ∈ rows, r.hash ≠ "") : prevHash (lastHash rows) = (chain sha256).head GENESIS rows := by
  rcases rows.eq_nil_or_concat with rfl | ⟨rs, r, rfl⟩
  · rfl
  · rw [List.concat_eq_append] at hsorted hhex ⊢
    rw [lastHash_snoc fun a ha => (List.pairwise_append.mp hsorted).2.2 a ha r (by simp), HashChain.head_snoc]
    simp only [prevHash, if_neg (hhex r (by simp))]
    rfl

/-- The rows of the transaction that holds the lock. -/
def State.pending (s : State) : List Row :=
  (((s.lock.bind s.sessions.get?).map Session.own).getD [])

/-- Past the lock statement of `append`. -/
def Pc.holds : Pc → Prop
  | .reading _ | .inserting _ _ => True
  | _ => False

structure Inv (sha256 : String → String) (s : State) : Prop where
  linked : (chain sha256).Linked (s.committed ++ s.pending)
  sorted : (s.committed ++ s.pending).Pairwise fun a b => a.seq < b.seq
  bound : ∀ r ∈ s.committed ++ s.pending, r.seq < s.nextSeq
  distinct : ((s.committed ++ s.pending).map Row.hash).Nodup
  holds : ∀ t x, s.sessions.get? t = some x → x.own ≠ [] ∨ x.pc.holds → s.lock = some t
  owner : ∀ t, s.lock = some t → ∃ x, s.sessions.get? t = some x ∧ x.pc ≠ .ended
  /-- The hash that an INSERT is about to use is still the last one. -/
  prev : ∀ t x a p, s.sessions.get? t = some x → x.pc = .inserting a p →
    p = (chain sha256).head GENESIS (s.committed ++ x.own)

theorem inv_init : Inv sha256 init := by
  constructor <;> simp [init, State.pending, HashChain.Linked, HashChain.LinkedFrom]

theorem pending_eq {s : State} {t : ℕ} {x : Session} (hl : s.lock = some t) (hx : s.sessions.get? t = some x) :
    s.pending = x.own := by
  simp [State.pending, hl, hx]

theorem get?_set {s : State} {t u : ℕ} {x : Session} :
    (s.set t x).sessions.get? u = if u = t then (s.sessions.get? u).map fun _ => x else s.sessions.get? u := by
  rw [State.set, Table.get?_modify]

/-- A transaction without rows of its own, whatever it does next, is none of the chain's business. -/
theorem pending_set {s : State} {t : ℕ} {x y : Session} (hx : s.sessions.get? t = some x)
    (ho : y.own = x.own) : (s.set t y).pending = s.pending := by
  unfold State.pending
  cases hl : s.lock with
  | none => simp [State.set, hl]
  | some u =>
    simp only [State.set, hl, Option.bind_some, Table.get?_modify]
    by_cases hu : u = t
    · subst hu
      simp [hx, ho]
    · rw [if_neg hu]

variable {s s' : State} {t : ℕ} {x : Session}

/-- A step that moves one transaction on and leaves the rows and the lock alone. -/
theorem Inv.set (hinv : Inv sha256 s) (hx : s.sessions.get? t = some x) {y : Session} (ho : y.own = x.own)
    (hh : y.pc.holds → s.lock = some t) (he : y.pc = .ended → s.lock ≠ some t)
    (hp : ∀ a p, y.pc = .inserting a p → p = (chain sha256).head GENESIS (s.committed ++ x.own)) :
    Inv sha256 (s.set t y) where
  linked := by rw [pending_set hx ho]; exact hinv.linked
  sorted := by rw [pending_set hx ho]; exact hinv.sorted
  bound := by rw [pending_set hx ho]; exact hinv.bound
  distinct := by rw [pending_set hx ho]; exact hinv.distinct
  holds := by
    intro u z hz h
    rw [get?_set] at hz
    by_cases hu : u = t
    · subst hu
      rw [if_pos rfl, hx] at hz
      obtain rfl := Option.some.inj hz
      rcases h with h | h
      · exact hinv.holds u x hx (Or.inl (ho ▸ h))
      · exact hh h
    · rw [if_neg hu] at hz
      exact hinv.holds u z hz h
  owner := by
    intro u hl
    rw [get?_set]
    by_cases hu : u = t
    · subst hu
      rw [if_pos rfl, hx]
      exact ⟨y, rfl, fun h => he h hl⟩
    · rw [if_neg hu]
      exact hinv.owner u hl
  prev := by
    intro u z a p hz h
    rw [get?_set] at hz
    by_cases hu : u = t
    · subst hu
      rw [if_pos rfl, hx] at hz
      obtain rfl := Option.some.inj hz
      rw [ho]
      exact hp a p h
    · rw [if_neg hu] at hz
      exact hinv.prev u z a p hz h

theorem Inv.begin (hinv : Inv sha256 s) : Inv sha256 { s with sessions := s.sessions.insert {} } := by
  have hold : ∀ u z, (s.sessions.insert {}).get? u = some z → s.sessions.get? u = some z ∨ z = {} := by
    intro u z hz
    rw [Table.get?_insert] at hz
    by_cases hu : u = s.sessions.size
    · rw [if_pos hu] at hz
      exact Or.inr (Option.some.inj hz).symm
    · rw [if_neg hu] at hz
      exact Or.inl hz
  have hkeep : ∀ u z, s.sessions.get? u = some z → (s.sessions.insert {}).get? u = some z :=
    fun u z hz => Table.get?_insert_of_some _ hz
  have hp : State.pending { s with sessions := s.sessions.insert {} } = s.pending := by
    cases hl : s.lock with
    | none => simp [State.pending, hl]
    | some u =>
      obtain ⟨z, hz, -⟩ := hinv.owner u hl
      rw [pending_eq hl hz]
      simp [State.pending, hkeep u z hz]
  constructor
  · rw [hp]; exact hinv.linked
  · rw [hp]; exact hinv.sorted
  · rw [hp]; exact hinv.bound
  · rw [hp]; exact hinv.distinct
  · intro u z hz h
    rcases hold u z hz with hz | rfl
    · exact hinv.holds u z hz h
    · rcases h with h | h
      · exact absurd rfl h
      · exact h.elim
  · intro u hl
    obtain ⟨z, hz, h⟩ := hinv.owner u hl
    exact ⟨z, hkeep u z hz, h⟩
  · intro u z a p hz h
    rcases hold u z hz with hz | rfl
    · exact hinv.prev u z a p hz h
    · cases h

/-- A transaction that does not hold the lock has no rows. -/
theorem Inv.own_nil (hinv : Inv sha256 s) (hx : s.sessions.get? t = some x) (hl : s.lock ≠ some t) :
    x.own = [] := by
  by_contra ho
  exact hl (hinv.holds t x hx (Or.inl ho))

theorem Inv.lock (hinv : Inv sha256 s) (hx : s.sessions.get? t = some x) (hpc : x.pc ≠ .ended)
    (hl : s.lock.any (· ≠ t) = false) :
    Inv sha256 { s with lock := some t } := by
  have hp : State.pending { s with lock := some t } = s.pending := by
    rw [pending_eq (s := { s with lock := some t }) rfl hx]
    cases h : s.lock with
    | none =>
      rw [hinv.own_nil hx (by simp [h])]
      simp [State.pending, h]
    | some u =>
      rw [h] at hl
      obtain rfl : u = t := by simpa using hl
      exact (pending_eq h hx).symm
  constructor
  · rw [hp]; exact hinv.linked
  · rw [hp]; exact hinv.sorted
  · rw [hp]; exact hinv.bound
  · rw [hp]; exact hinv.distinct
  · intro u z hz h
    have := hinv.holds u z hz h
    rw [this] at hl
    obtain rfl : u = t := by simpa using hl
    rfl
  · rintro u h
    obtain rfl := Option.some.inj h
    exact ⟨x, hx, hpc⟩
  · exact hinv.prev

/-- An INSERT after the last row of the transaction that holds the lock. -/
theorem Inv.insert (hinv : Inv sha256 s) (hx : s.sessions.get? t = some x) {a : Args} {p : String}
    (hpc : x.pc = .inserting a p) {r : Row} (hseq : r.seq = s.nextSeq) (hprev : r.prevHash = p)
    (hhash : r.hash = digest sha256 p r.entry) (hnew : ∀ b ∈ s.committed ++ x.own, b.hash ≠ r.hash) :
    Inv sha256 ({ s with nextSeq := s.nextSeq + 1 }.set t ⟨.idle, x.own ++ [r]⟩) := by
  have hl : s.lock = some t := hinv.holds t x hx (Or.inr (by rw [hpc]; trivial))
  have hp : s.pending = x.own := pending_eq hl hx
  have hp' : State.pending ({ s with nextSeq := s.nextSeq + 1 }.set t ⟨.idle, x.own ++ [r]⟩) = x.own ++ [r] :=
    pending_eq (x := ⟨.idle, x.own ++ [r]⟩) (by exact hl) (by rw [get?_set, if_pos rfl]; simp [hx])
  have hget : ∀ u z, (({ s with nextSeq := s.nextSeq + 1 } : State).set t ⟨.idle, x.own ++ [r]⟩).sessions.get? u =
    some z →
      u = t ∧ z = ⟨.idle, x.own ++ [r]⟩ ∨ s.sessions.get? u = some z := by
    intro u z hz
    rw [get?_set] at hz
    by_cases hu : u = t
    · subst hu
      rw [if_pos rfl, hx] at hz
      exact Or.inl ⟨rfl, (Option.some.inj hz).symm⟩
    · rw [if_neg hu] at hz
      exact Or.inr hz
  have hlinked := hinv.linked
  have hsorted := hinv.sorted
  have hbound := hinv.bound
  have hdistinct := hinv.distinct
  rw [hp] at hlinked hsorted hbound hdistinct
  have hhead : p = (chain sha256).head GENESIS (s.committed ++ x.own) := hinv.prev t x a p hx hpc
  constructor
  · rw [hp']
    show (chain sha256).LinkedFrom GENESIS (s.committed ++ (x.own ++ [r]))
    rw [← List.append_assoc, HashChain.linkedFrom_snoc]
    exact ⟨hlinked, hprev.trans hhead, by rw [← hhead]; exact hhash⟩
  · rw [hp']
    show (s.committed ++ (x.own ++ [r])).Pairwise _
    rw [← List.append_assoc, List.pairwise_append]
    refine ⟨hsorted, List.pairwise_singleton _ _, fun b hb c hc => ?_⟩
    rw [List.mem_singleton.mp hc, hseq]
    exact hbound b hb
  · rw [hp']
    intro b hb
    replace hb : b ∈ (s.committed ++ x.own) ++ [r] := by rw [List.append_assoc]; exact hb
    show b.seq < s.nextSeq + 1
    rcases List.mem_append.mp hb with hb | hb
    · exact Nat.lt_succ_of_lt (hbound b hb)
    · rw [List.mem_singleton.mp hb, hseq]
      exact Nat.lt_succ_self _
  · rw [hp']
    show ((s.committed ++ (x.own ++ [r])).map Row.hash).Nodup
    rw [← List.append_assoc, List.map_append, List.nodup_append]
    refine ⟨hdistinct, List.nodup_singleton _, ?_⟩
    intro h hh h' hh'
    obtain ⟨b, hb, rfl⟩ := List.mem_map.mp hh
    rw [show h' = r.hash by simpa using hh']
    exact hnew b hb
  · intro u z hz h
    rcases hget u z hz with ⟨rfl, rfl⟩ | hz
    · exact hl
    · exact hinv.holds u z hz h
  · intro u hlu
    obtain rfl : t = u := Option.some.inj (hl.symm.trans hlu)
    refine ⟨⟨.idle, x.own ++ [r]⟩, ?_, by simp⟩
    rw [get?_set, if_pos rfl, show ({ s with nextSeq := s.nextSeq + 1 } : State).sessions.get? t = some x from hx]
    rfl
  · intro u z b q hz h
    rcases hget u z hz with ⟨rfl, rfl⟩ | hz
    · cases h
    · exact hinv.prev u z b q hz h

/-- The end of a transaction: its first rows stay (all of them, or none), and the lock goes. -/
theorem Inv.finish (hinv : Inv sha256 s) (hx : s.sessions.get? t = some x) {rows : List Row} (hpre : rows <+: x.own) :
    Inv sha256 ({ s with committed := s.committed ++ rows, lock := s.unlock t }.set t ⟨.ended, []⟩) := by
  obtain ⟨rest, hrest⟩ := hpre
  have hget : ∀ u z, (s.sessions.modify t fun _ => (⟨.ended, []⟩ : Session)).get? u = some z →
      z = ⟨.ended, []⟩ ∨ u ≠ t ∧ s.sessions.get? u = some z := by
    intro u z hz
    rw [Table.get?_modify] at hz
    by_cases hu : u = t
    · rw [hu, if_pos rfl, hx] at hz
      exact Or.inl (Option.some.inj hz).symm
    · rw [if_neg hu] at hz
      exact Or.inr ⟨hu, hz⟩
  by_cases hl : s.lock = some t
  · have hunlock : s.unlock t = none := if_pos hl
    have hp : s.pending = rows ++ rest := (pending_eq hl hx).trans hrest.symm
    have hp' : State.pending ({ s with committed := s.committed ++ rows, lock := s.unlock t }.set t ⟨.ended, []⟩) =
        [] := by
      simp [State.pending, State.set, hunlock]
    have hsub : (s.committed ++ rows).Sublist (s.committed ++ s.pending) := by
      rw [hp]
      exact List.Sublist.append_left (List.sublist_append_left _ _) _
    refine ⟨?_, ?_, ?_, ?_, ?_, ?_, ?_⟩
    · have h := hinv.linked
      rw [hp, ← List.append_assoc] at h
      rw [hp', List.append_nil]
      exact (HashChain.linkedFrom_append.mp h).1
    · rw [hp', List.append_nil]
      exact hinv.sorted.sublist hsub
    · rw [hp', List.append_nil]
      exact fun b hb => hinv.bound b (hsub.subset hb)
    · rw [hp', List.append_nil]
      exact hinv.distinct.sublist (hsub.map _)
    · intro u z hz h
      rcases hget u z hz with rfl | ⟨hu, hz⟩
      · rcases h with h | h
        · exact absurd rfl h
        · exact h.elim
      · exact absurd (Option.some.inj (hl.symm.trans (hinv.holds u z hz h))).symm hu
    · intro u h
      exact absurd (hunlock.symm.trans h) (by simp)
    · intro u z a p hz h
      rcases hget u z hz with rfl | ⟨hu, hz⟩
      · cases h
      · have := hinv.holds u z hz (Or.inr (by rw [h]; trivial))
        exact absurd (Option.some.inj (hl.symm.trans this)).symm hu
  · have hown := hinv.own_nil hx hl
    rw [hown] at hrest
    obtain ⟨rfl, rfl⟩ := List.append_eq_nil_iff.mp hrest
    rw [show s.unlock t = s.lock from if_neg hl, List.append_nil]
    exact hinv.set hx hown.symm (fun h => h.elim) (fun _ => hl) (fun _ _ h => by cases h)

theorem inv_step {op : Op} (hhex : ∀ text, sha256 text ≠ "") (hinv : Inv sha256 s) (h : step sha256 s op = some s') :
    Inv sha256 s' := by
  cases op with
  | begin =>
    obtain rfl := Option.some.inj h
    exact hinv.begin
  | append t a =>
    obtain ⟨x, hx, h⟩ := Option.bind_eq_some_iff.mp h
    cases hpc : x.pc <;> rw [hpc] at h <;> try cases h
    exact hinv.set hx rfl (fun h => h.elim) (fun h => by cases h) (fun _ _ h => by cases h)
  | next t now =>
    obtain ⟨x, hx, h⟩ := Option.bind_eq_some_iff.mp h
    cases hpc : x.pc with
    | idle | failed | ended => rw [hpc] at h; cases h
    | locking a =>
      rw [hpc] at h
      simp only [State.lockStmt] at h
      cases hl : s.lock.any (· ≠ t) with
      | true => rw [hl] at h; cases h
      | false =>
        rw [hl] at h
        obtain rfl := Option.some.inj h
        exact (hinv.lock hx (by simp [hpc]) hl).set hx rfl (fun _ => rfl) (fun h => by cases h)
          (fun _ _ h => by cases h)
    | reading a =>
      rw [hpc] at h
      obtain rfl := Option.some.inj h
      have hl : s.lock = some t := hinv.holds t x hx (Or.inr (by rw [hpc]; trivial))
      refine hinv.set hx rfl (fun _ => hl) (fun h => by cases h) fun b p h => ?_
      obtain ⟨-, rfl⟩ := Pc.inserting.inj h
      have hp := pending_eq hl hx
      have hsorted := hinv.sorted
      have hlinked := hinv.linked
      rw [hp] at hsorted hlinked
      exact prevHash_eq_head hsorted fun r hr => by
        obtain ⟨n, hn⟩ := List.mem_iff_getElem?.mp hr
        exact fun he => hhex _ ((HashChain.LinkedFrom.row hlinked hn).2.symm.trans he)
    | inserting a p =>
      rw [hpc] at h
      simp only [State.insertStmt] at h
      split_ifs at h with h1 h2
      · obtain rfl := Option.some.inj h
        have hnext : Inv sha256 { s with nextSeq := s.nextSeq + 1 } :=
          ⟨hinv.linked, hinv.sorted, fun r hr => Nat.lt_succ_of_lt (hinv.bound r hr), hinv.distinct, hinv.holds,
            hinv.owner, hinv.prev⟩
        exact hnext.set hx rfl (fun h => h.elim) (fun h => by cases h) (fun _ _ h => by cases h)
      · obtain rfl := Option.some.inj h
        refine hinv.insert hx hpc rfl rfl rfl fun b hb he => h1 ?_
        exact List.any_eq_true.mpr ⟨b, hb, by simpa using he⟩
  | commit t =>
    obtain ⟨x, hx, h⟩ := Option.bind_eq_some_iff.mp h
    cases hpc : x.pc <;> rw [hpc] at h <;> try cases h
    exact hinv.finish hx (List.prefix_refl _)
  | rollback t =>
    obtain ⟨x, hx, h⟩ := Option.bind_eq_some_iff.mp h
    have := hinv.finish hx List.nil_prefix
    rw [List.append_nil] at this
    cases hpc : x.pc <;> rw [hpc] at h <;> first | cases h; exact this | cases h

theorem Inv.table_eq (hinv : Inv sha256 s) : s.table = s.committed := by
  refine List.Pairwise.insertionSort_eq ?_
  exact (List.pairwise_append.mp hinv.sorted).1.imp fun h => le_of_lt h

theorem inv_run {ops : List Op} (hhex : ∀ text, sha256 text ≠ "") (h : Runs.run (step sha256) init ops = some s) :
    Inv sha256 s :=
  Runs.invariant (fun _ _ _ hs hstep => inv_step hhex hs hstep) h inv_init

theorem Inv.linked_table (hinv : Inv sha256 s) : (chain sha256).Linked s.table := by
  rw [hinv.table_eq]
  exact (HashChain.linkedFrom_append.mp hinv.linked).1

/-- Whatever transactions append at the same time and however they end, the committed rows in
`seq` order are one chain: each row names the hash of the row before it, the first one names
the genesis hash, no hash occurs twice, and `verify` counts every row. -/
theorem audit_chain_unforked {ops : List Op} (hhex : ∀ text, sha256 text ≠ "")
    (h : Runs.run (step sha256) init ops = some s) :
    s.table.Pairwise (fun a b => a.seq < b.seq) ∧ (∀ r ∈ s.table.head?, r.prevHash = GENESIS) ∧
      s.table.IsChain (fun a b => b.prevHash = a.hash) ∧ (s.table.map Row.hash).Nodup ∧
      verify sha256 s.table = { ok := true, checked := s.committed.length } := by
  have hinv := inv_run hhex h
  have hlinked := hinv.linked_table
  rw [hinv.table_eq] at hlinked ⊢
  refine ⟨(List.pairwise_append.mp hinv.sorted).1, ?_, hlinked.isChain,
    (List.nodup_append.mp (List.map_append ▸ hinv.distinct)).1, verify_eq_ok.mpr ⟨hlinked, rfl⟩⟩
  intro r hr
  cases hc : s.committed with
  | nil => rw [hc] at hr; cases hr
  | cons a rows =>
    rw [hc] at hr hlinked
    obtain rfl : a = r := by simpa using hr
    exact hlinked.1

/-! Two appends that are kept, with one between them that is rolled back. -/

def sampleTime : Datetime := ⟨2026, 10, 12, 5, 31, 50, 265820, by decide, by decide⟩

def sampleArgs (subject : String) : Args := { actor := "tester", event := "test.event", subject }

def sampleHash0 : String := "9c812b5c426adc3a7f7653cc0949873f319352a31cd93ec7cd3afce0cfad6639"

def sampleHash1 : String := "fa046b575e151f46e11474c3e411d429966e51515380a362f3b15240f6ecdd44"

/-- The two texts of the sample, with their digests. -/
def sampleDigests : List (String × String) :=
  [((canonical GENESIS ((sampleArgs "s0").entry sampleTime)).dumps, sampleHash0),
    ((canonical sampleHash0 ((sampleArgs "s1").entry sampleTime)).dumps, sampleHash1)]

def sampleSha : String → String := Digest.ofKnown sampleDigests

def appendOps (t : ℕ) (a : Args) : List Op :=
  [.begin, .append t a, .next t sampleTime, .next t sampleTime, .next t sampleTime]

def sampleOps : List Op :=
  appendOps 0 (sampleArgs "s0") ++ [.commit 0] ++ appendOps 1 (sampleArgs "s1") ++ [.rollback 1] ++
    appendOps 2 (sampleArgs "s1") ++ [.commit 2]

theorem sampleSha_ne_empty : ∀ text, sampleSha text ≠ "" := Digest.ofKnown_ne (by decide) (by decide)

theorem sampleOps_run :
    (Runs.run (step sampleSha) init sampleOps).map (fun s => s.table.map fun r => (r.seq, r.entry.subject)) =
      some [(1, "s0"), (3, "s1")] := by
  decide +kernel

theorem audit_chain_unforked_gap :
    ∃ s, Runs.run (step sampleSha) init sampleOps = some s ∧
      s.table.map (fun r => (r.seq, r.entry.subject)) = [(1, "s0"), (3, "s1")] ∧
      verify sampleSha s.table = { ok := true, checked := 2 } := by
  obtain ⟨s, hs, hrows⟩ := Option.map_eq_some_iff.mp sampleOps_run
  have hlen := congrArg List.length hrows
  rw [List.length_map, State.table, List.length_insertionSort] at hlen
  have h := (audit_chain_unforked sampleSha_ne_empty hs).2.2.2.2
  rw [hlen] at h
  exact ⟨s, hs, hrows, h⟩

end Blackboard.AuditLog
