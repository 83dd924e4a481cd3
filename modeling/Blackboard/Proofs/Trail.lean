import Blackboard.Spec.Store

/-! The state machine and the audit trail agree, statement by statement. The invariant says
it of what is committed and of what each open transaction would commit; `Inv.advance` is the
one case for a statement, whatever it wrote. -/

namespace Blackboard

open Journal (Entry)

def Allowed (fromState toState : State) : Prop :=
  Incidents.checkTransition fromState toState = .ok ()

theorem not_allowed_of_terminal {s : State} (h : s ∈ Incidents.TERMINAL) (d : State) : ¬ Allowed s d := by
  have hc : Incidents.TERMINAL.contains s = true := by simpa using h
  simp [Allowed, Incidents.checkTransition, h]

/-- The row is where its moves lead, and is closed exactly in a terminal state. -/
structure Agrees (i : Incident) (es : List (Entry State)) : Prop where
  journal : Journal.Of Allowed .received es i.state i.version
  closed : i.closedAt.isSome = true ↔ i.state ∈ Incidents.TERMINAL

theorem Agrees.opened (now : Time) (o : Opening) : Agrees (Incidents.opened now o) [] :=
  ⟨.nil, by simp [Incidents.opened, Incidents.TERMINAL]⟩

theorem Agrees.merged {i : Incident} {es : List (Entry State)} (h : Agrees i es) (now : Time)
    (o : Opening) : Agrees (Incidents.merged now o i) es := ⟨h.journal, h.closed⟩

theorem Agrees.moved {i : Incident} {es : List (Entry State)} {fromState toState : State} {v : ℕ}
    (h : Agrees i es) (hat : Incidents.isAt fromState v i = true) (hm : Allowed fromState toState)
    (now : Time) : Agrees (Incidents.moved now toState i) (es ++ [⟨fromState, toState, v + 1⟩]) := by
  simp only [Incidents.isAt, Bool.and_eq_true, decide_eq_true_eq] at hat
  obtain ⟨rfl, rfl⟩ := hat
  refine ⟨h.journal.snoc hm, ?_⟩
  have hopen : i.closedAt = none := by
    by_contra hc
    have := h.closed.mp (Option.isSome_iff_ne_none.mpr hc)
    exact not_allowed_of_terminal this _ hm
  simp only [Incidents.moved]
  by_cases ht : toState ∈ Incidents.TERMINAL <;> simp [ht, hopen]

/-- The move an audit entry records of one incident. -/
def entryOf (id : ℕ) (e : AuditEntry) : Option (Entry State) :=
  if e.subject = .incident id then e.event.transition? else none

theorem trail_append {H : Type} (id : ℕ) (a b : List (AuditRow H)) :
    trail id (a ++ b) = trail id a ++ trail id b := by simp [trail]

theorem trail_singleton {H : Type} (id : ℕ) (r : AuditRow H) :
    trail id [r] = (entryOf id r.entry).toList := by
  simp only [trail, entryOf, List.filterMap_cons, List.filterMap_nil]
  split <;> simp_all

/-- The moves of one incident among calls of `transition`, as the audit log would have them. -/
def movesOf (id : ℕ) (ms : List Transition) : List (Entry State) :=
  ms.filterMap fun m =>
    if m.incident = id then some ⟨m.fromState, m.toState, m.expectedVersion + 1⟩ else none

theorem movesOf_append (id : ℕ) (a b : List Transition) :
    movesOf id (a ++ b) = movesOf id a ++ movesOf id b := by simp [movesOf]

/-- What the transaction still owes the log for a row it has already updated. -/
def Pc.owed (id : ℕ) : Pc → List (Entry State)
  | .appending e _ => (entryOf id e).toList
  | _ => []

def Session.trail {H : Type} (ses : Session H) (id : ℕ) : List (Entry State) :=
  Blackboard.trail id ses.appended ++ ses.pc.owed id

structure SessionOk {H : Type} (ses : Session H) : Prop where
  legal : ∀ m, ses.pc = .moving m → Allowed m.fromState m.toState
  pending : ∀ e move, ses.pc = .appending e move → ∀ id, (entryOf id e).toList = movesOf id move.toList
  recorded : ∀ id, movesOf id ses.moves = trail id ses.appended

theorem SessionOk.plain {H : Type} {ses : Session H} {pc : Pc} (h : SessionOk ses)
    (hm : ∀ m, pc ≠ .moving m) (ha : ∀ e move, pc ≠ .appending e move) : SessionOk { ses with pc } :=
  ⟨fun m hpc => absurd hpc (hm m), fun e move hpc => absurd hpc (ha e move), h.recorded⟩

/-- Rows in the order of their `seq`, all given out already. -/
def Ordered {H : Type} (nextSeq : ℕ) (rows : List (AuditRow H)) : Prop :=
  rows.Pairwise (fun a b => a.seq < b.seq) ∧ ∀ r ∈ rows, r.seq < nextSeq

theorem Ordered.snoc {H : Type} {n : ℕ} {rows : List (AuditRow H)} (h : Ordered n rows)
    {r : AuditRow H} (hr : r.seq = n) : Ordered (n + 1) (rows ++ [r]) := by
  refine ⟨List.pairwise_append.mpr ⟨h.1, List.pairwise_singleton _ _, fun a ha b hb => ?_⟩, ?_⟩
  · rw [List.mem_singleton.mp hb, hr]
    exact h.2 a ha
  · intro a ha
    rcases List.mem_append.mp ha with ha | ha
    · exact Nat.lt_succ_of_lt (h.2 a ha)
    · rw [List.mem_singleton.mp ha, hr]
      exact Nat.lt_succ_self n

theorem Ordered.mono {H : Type} {n m : ℕ} {rows : List (AuditRow H)} (h : Ordered n rows)
    (hnm : n ≤ m) : Ordered m rows := ⟨h.1, fun r hr => Nat.lt_of_lt_of_le (h.2 r hr) hnm⟩

namespace Store

variable {H : Type}

def slot (s : Store H) (id : ℕ) : Slot := (s.slots.get? id).getD {}

structure Inv (s : Store H) : Prop where
  committed : ∀ id i, (s.slot id).committed = some i → Agrees i (trail id s.audit)
  blank : ∀ id, (s.slot id).committed = none → trail id s.audit = []
  dirty : ∀ id t i, (s.slot id).dirty = some (t, i) →
    ∃ ses, s.sessions t = some ses ∧ Agrees i (trail id s.audit ++ ses.trail id)
  clean : ∀ id t ses, s.sessions t = some ses → (∀ i, (s.slot id).dirty ≠ some (t, i)) →
    ses.trail id = []
  held : ∀ t ses, s.sessions t = some ses → ses.appended ≠ [] → s.lock = some t
  sessions : ∀ t ses, s.sessions t = some ses → SessionOk ses
  order : Ordered s.nextSeq s.audit
  sessionOrder : ∀ t ses, s.sessions t = some ses → Ordered s.nextSeq (s.audit ++ ses.appended)
  moves : ∀ id, movesOf id s.moves = trail id s.audit

theorem init_inv : (init : Store H).Inv := by
  refine ⟨?_, ?_, ?_, ?_, ?_, ?_, ⟨List.Pairwise.nil, by simp [init]⟩, ?_, ?_⟩ <;>
    simp [init, slot, trail, movesOf]

/-- What a transaction sees and nobody else has locked agrees with the log it would leave. -/
theorem Inv.visible {s : Store H} (h : s.Inv) {t id : ℕ} {ses : Session H} {i : Incident}
    (ht : s.sessions t = some ses) (hv : (s.slot id).visible t = some i)
    (hl : (s.slot id).lockedFor t = false) : Agrees i (trail id s.audit ++ ses.trail id) := by
  unfold Slot.visible at hv
  unfold Slot.lockedFor at hl
  cases hd : (s.slot id).dirty with
  | none =>
    rw [hd] at hv
    rw [h.clean id t ses ht (by simp [hd]), List.append_nil]
    exact h.committed id i hv
  | some d =>
    obtain ⟨u, j⟩ := d
    rw [hd] at hv hl
    simp only [ne_eq, decide_eq_false_iff_not, not_not] at hl
    subst hl
    simp only [if_true, Option.some.injEq] at hv
    subst hv
    obtain ⟨ses', ht', ha⟩ := h.dirty id u j hd
    rw [ht] at ht'
    obtain rfl := Option.some.inj ht'
    exact ha

/-- What a statement of transaction `t` did to the slot of one incident: nothing, or it wrote
a version that agrees with what the transaction has appended or owes. -/
def Touched (s : Store H) (t : ℕ) (ses ses' : Session H) (id : ℕ) (x : Slot) : Prop :=
  (x = s.slot id ∧ ses'.trail id = ses.trail id) ∨
    ∃ i, x = { s.slot id with dirty := some (t, i) } ∧ (s.slot id).lockedFor t = false ∧
      Agrees i (trail id s.audit ++ ses'.trail id)

theorem Inv.advance {s s' : Store H} {t : ℕ} {ses ses' : Session H} (h : s.Inv)
    (ht : s.sessions t = some ses)
    (haudit : s'.audit = s.audit) (hmoves : s'.moves = s.moves)
    (hses : ∀ u, s'.sessions u = if u = t then some ses' else s.sessions u)
    (hslot : ∀ id, Touched s t ses ses' id (s'.slot id)) (hok : SessionOk ses')
    (hlock : s'.lock = s.lock ∧ ses'.appended = ses.appended ∨
      s'.lock = some t ∧ (s.lock = none ∨ s.lock = some t))
    (hseq : s.nextSeq ≤ s'.nextSeq) (hord : Ordered s'.nextSeq (s.audit ++ ses'.appended)) : s'.Inv := by
  have hcommitted : ∀ id, (s'.slot id).committed = (s.slot id).committed := by
    intro id
    rcases hslot id with ⟨hx, -⟩ | ⟨i, hx, -, -⟩ <;> rw [hx]
  have hself : s'.sessions t = some ses' := by rw [hses, if_pos rfl]
  have hother : ∀ u, u ≠ t → s'.sessions u = s.sessions u := fun u hu => by rw [hses, if_neg hu]
  refine ⟨?_, ?_, ?_, ?_, ?_, ?_, ?_, ?_, ?_⟩
  · intro id i hi
    rw [hcommitted] at hi
    rw [haudit]
    exact h.committed id i hi
  · intro id hi
    rw [hcommitted] at hi
    rw [haudit]
    exact h.blank id hi
  · intro id u i hi
    rw [haudit]
    rcases hslot id with ⟨hx, htr⟩ | ⟨j, hx, hl, ha⟩
    · rw [hx] at hi
      obtain ⟨ses0, hu, ha⟩ := h.dirty id u i hi
      by_cases hut : u = t
      · subst hut
        rw [ht] at hu
        obtain rfl := Option.some.inj hu
        exact ⟨ses', hself, by rw [htr]; exact ha⟩
      · exact ⟨ses0, by rw [hother u hut, hu], ha⟩
    · rw [hx] at hi
      simp only [Option.some.injEq, Prod.mk.injEq] at hi
      obtain ⟨rfl, rfl⟩ := hi
      exact ⟨ses', hself, ha⟩
  · intro id u su hu hnd
    rcases hslot id with ⟨hx, htr⟩ | ⟨j, hx, hl, -⟩
    · rw [hx] at hnd
      by_cases hut : u = t
      · subst hut
        rw [hself] at hu
        obtain rfl := Option.some.inj hu
        rw [htr]
        exact h.clean id u ses ht hnd
      · rw [hother u hut] at hu
        exact h.clean id u su hu hnd
    · by_cases hut : u = t
      · subst hut
        exact absurd (by rw [hx]) (hnd j)
      · rw [hother u hut] at hu
        refine h.clean id u su hu fun i hd => ?_
        unfold Slot.lockedFor at hl
        rw [hd] at hl
        simp [hut] at hl
  · intro u su hu hne
    by_cases hut : u = t
    · subst hut
      rw [hself] at hu
      obtain rfl := Option.some.inj hu
      rcases hlock with ⟨hl, happ⟩ | ⟨hl, -⟩
      · rw [hl]
        exact h.held u ses ht (by rwa [happ] at hne)
      · exact hl
    · rw [hother u hut] at hu
      have hu' := h.held u su hu hne
      rcases hlock with ⟨hl, -⟩ | ⟨-, hl | hl⟩
      · rw [hl, hu']
      · rw [hl] at hu'
        cases hu'
      · rw [hl] at hu'
        exact absurd (Option.some.inj hu').symm hut
  · intro u su hu
    by_cases hut : u = t
    · subst hut
      rw [hself] at hu
      obtain rfl := Option.some.inj hu
      exact hok
    · rw [hother u hut] at hu
      exact h.sessions u su hu
  · rw [haudit]
    exact h.order.mono hseq
  · intro u su hu
    rw [haudit]
    by_cases hut : u = t
    · subst hut
      rw [hself] at hu
      obtain rfl := Option.some.inj hu
      exact hord
    · rw [hother u hut] at hu
      exact (h.sessionOrder u su hu).mono hseq
  · intro id
    rw [hmoves, haudit]
    exact h.moves id

theorem slot_update (s : Store H) {f : Slot → Slot} (hf : f {} = {}) (id : ℕ) :
    (s.setSlots (s.slots.update fun _ => f)).slot id = f (s.slot id) := by
  simp only [slot, setSlots, Table.get?_update]
  cases s.slots.get? id with
  | none => exact hf.symm
  | some x => rfl

theorem slot_modify (s : Store H) {f : Slot → Slot} (hf : f {} = {}) (j id : ℕ) :
    (s.setSlots (s.slots.modify j f)).slot id = if id = j then f (s.slot id) else s.slot id := by
  simp only [slot, setSlots, Table.get?_modify]
  split_ifs
  · cases s.slots.get? id with
    | none => exact hf.symm
    | some x => rfl
  · rfl

theorem slot_insert (s : Store H) (x : Slot) (id : ℕ) :
    (s.setSlots (s.slots.insert x)).slot id = if id = s.slots.size then x else s.slot id := by
  simp only [slot, setSlots, Table.get?_insert]
  split_ifs <;> rfl

theorem slot_size (s : Store H) : s.slot s.slots.size = {} := by simp [slot]

/-- What no row of the table satisfies, no slot does. -/
theorem slot_any {s : Store H} {p : Slot → Bool} (h : s.slots.rows.any p = false) (hp : p {} = false)
    (id : ℕ) : p (s.slot id) = false := by
  unfold slot
  cases hx : s.slots.get? id with
  | none => exact hp
  | some x => simpa using List.any_eq_false.mp h x (Table.mem_rows.mpr ⟨id, hx⟩)

/-- A transaction that goes on to another statement without having written anything. -/
theorem Inv.goto {s : Store H} {t : ℕ} {ses : Session H} {pc : Pc} (h : s.Inv)
    (ht : s.sessions t = some ses) (howed : ∀ id, pc.owed id = ses.pc.owed id)
    (hok : SessionOk { ses with pc }) : (s.setPc t ses pc).Inv := by
  refine h.advance ht rfl rfl (fun u => rfl) (fun id => Or.inl ⟨rfl, ?_⟩) hok
    (Or.inl ⟨rfl, rfl⟩) le_rfl (h.sessionOrder t ses ht)
  simp only [Session.trail, howed id]

theorem Inv.call {s s' : Store H} {t : ℕ} {ses : Session H} {c : Call} (h : s.Inv)
    (ht : s.sessions t = some ses) (hidle : ses.pc = .idle) (hs : s.call t ses c = some s') : s'.Inv := by
  have hok := h.sessions t ses ht
  have howed : ∀ id, ses.pc.owed id = [] := fun id => by rw [hidle]; rfl
  cases c with
  | openOrMerge o =>
    obtain rfl := Option.some.inj hs
    exact h.goto ht (fun id => (howed id).symm) (hok.plain (by simp) (by simp))
  | transition m =>
    simp only [Store.call] at hs
    split at hs
    · rename_i hc
      obtain rfl := Option.some.inj hs
      refine h.goto ht (fun id => (howed id).symm) ⟨fun m' hm' => ?_, by simp, hok.recorded⟩
      cases hm'
      exact hc
    · obtain rfl := Option.some.inj hs
      exact h
  | append e =>
    simp only [Store.call] at hs
    split_ifs at hs with he
    obtain rfl := Option.some.inj hs
    have hnone : ∀ id, entryOf id e = none := by
      intro id
      simp only [Option.not_isSome_iff_eq_none] at he
      simp [entryOf, he]
    refine h.goto ht (fun id => ?_) ⟨by simp, fun e' move he' id => ?_, hok.recorded⟩
    · rw [howed id]
      simp [Pc.owed, hnone id]
    · simp only [Pc.appending.injEq] at he'
      obtain ⟨rfl, rfl⟩ := he'
      simp [hnone id, movesOf]

theorem Inv.insertStmt {s s' : Store H} {t left : ℕ} {ses : Session H} {o : Opening} (h : s.Inv)
    (ht : s.sessions t = some ses) (hpc : ses.pc = .inserting o left)
    (hs : s.insertStmt t ses o left = some s') : s'.Inv := by
  have hok := h.sessions t ses ht
  have howed : ∀ id, ses.pc.owed id = [] := fun id => by rw [hpc]; rfl
  unfold Store.insertStmt at hs
  split_ifs at hs
  · obtain rfl := Option.some.inj hs
    exact h.goto ht (fun id => (howed id).symm) (hok.plain (by simp) (by simp))
  · obtain rfl := Option.some.inj hs
    exact h.goto ht (fun id => (howed id).symm) (hok.plain (by simp) (by simp))
  · obtain rfl := Option.some.inj hs
    have htrail : ∀ id, ({ ses with pc := .idle } : Session H).trail id = ses.trail id := by
      intro id
      simp only [Session.trail]
      rw [howed id]
      rfl
    refine h.advance ht rfl rfl (fun u => rfl) (fun id => ?_)
      (hok.plain (by simp) (by simp)) (Or.inl ⟨rfl, rfl⟩) le_rfl (h.sessionOrder t ses ht)
    have hslot := slot_insert s { dirty := some (t, Incidents.opened ses.now o) } id
    by_cases hid : id = s.slots.size
    · rw [if_pos hid] at hslot
      subst hid
      have hempty := slot_size s
      refine Or.inr ⟨Incidents.opened ses.now o, by rw [hempty]; exact hslot, by rw [hempty]; rfl, ?_⟩
      rw [htrail, h.blank _ (by rw [hempty]), h.clean _ t ses ht (by rw [hempty]; simp)]
      exact .opened _ o
    · rw [if_neg hid] at hslot
      exact Or.inl ⟨hslot, htrail id⟩

theorem Inv.mergeStmt {s s' : Store H} {t left : ℕ} {ses : Session H} {o : Opening} (h : s.Inv)
    (ht : s.sessions t = some ses) (hpc : ses.pc = .merging o left)
    (hs : s.mergeStmt t ses o left = some s') : s'.Inv := by
  have hok := h.sessions t ses ht
  have howed : ∀ id, ses.pc.owed id = [] := fun id => by rw [hpc]; rfl
  unfold Store.mergeStmt at hs
  split_ifs at hs with hfree hany hleft
  · obtain rfl := Option.some.inj hs
    have htrail : ∀ id, ({ ses with pc := .idle } : Session H).trail id = ses.trail id := by
      intro id
      simp only [Session.trail]
      rw [howed id]
      rfl
    refine h.advance ht rfl rfl (fun u => rfl) (fun id => ?_)
      (hok.plain (by simp) (by simp)) (Or.inl ⟨rfl, rfl⟩) le_rfl (h.sessionOrder t ses ht)
    have hslot := slot_update s (f := Slot.merge t ses.now o) rfl id
    have hlock := slot_any (Bool.eq_false_iff.mpr hfree) rfl id
    by_cases hopen : (s.slot id).isOpen t o = true
    · obtain ⟨i, hv, -⟩ := (Option.any_eq_true _ _).mp hopen
      simp only [hopen, Bool.true_and] at hlock
      refine Or.inr ⟨Incidents.merged ses.now o i, ?_, hlock, ?_⟩
      · refine hslot.trans ?_
        simp [Slot.merge, hopen, Slot.write, hv]
      · rw [htrail]
        exact (h.visible ht hv hlock).merged ses.now o
    · refine Or.inl ⟨hslot.trans ?_, htrail id⟩
      simp [Slot.merge, hopen]
  · obtain rfl := Option.some.inj hs
    exact h.goto ht (fun id => (howed id).symm) (hok.plain (by simp) (by simp))
  · obtain rfl := Option.some.inj hs
    exact h.goto ht (fun id => (howed id).symm) (hok.plain (by simp) (by simp))

theorem Inv.moveStmt {s s' : Store H} {t : ℕ} {ses : Session H} {m : Transition} (h : s.Inv)
    (ht : s.sessions t = some ses) (hpc : ses.pc = .moving m)
    (hs : s.moveStmt t ses m = some s') : s'.Inv := by
  have hok := h.sessions t ses ht
  have howed : ∀ id, ses.pc.owed id = [] := fun id => by rw [hpc]; rfl
  have hidle : (s.setPc t ses .idle).Inv :=
    h.goto ht (fun id => (howed id).symm) (hok.plain (by simp) (by simp))
  unfold Store.moveStmt at hs
  split at hs
  · obtain rfl := Option.some.inj hs
    exact hidle
  · rename_i i hv
    have hslot0 : (s.slots.get? m.incident).getD {} = s.slot m.incident := rfl
    obtain ⟨x, hx, hvx⟩ := Option.bind_eq_some_iff.mp hv
    have hxs : s.slot m.incident = x := by simp [slot, hx]
    split_ifs at hs with hat hl
    · obtain rfl := Option.some.inj hs
      set pc : Pc := .appending (Incidents.transitionEntry m i.tenantId (i.version + 1)) (some m) with hpcd
      have hver : i.version = m.expectedVersion := by
        simp only [Incidents.isAt, Bool.and_eq_true, decide_eq_true_eq] at hat
        exact hat.2
      have howed' : ∀ id, pc.owed id =
          if m.incident = id then [⟨m.fromState, m.toState, m.expectedVersion + 1⟩] else [] := by
        intro id
        simp only [hpcd, Pc.owed, entryOf, Incidents.transitionEntry, Subject.incident.injEq, hver,
          Event.transition?]
        split_ifs <;> rfl
      have hlx : x.lockedFor t = false := by simpa [hx] using hl
      refine h.advance ht rfl rfl (fun u => rfl) (fun id => ?_)
        ⟨by simp [hpcd], fun e move he id => ?_, hok.recorded⟩ (Or.inl ⟨rfl, rfl⟩) le_rfl
        (h.sessionOrder t ses ht)
      · have hslot := slot_modify s (f := Slot.write t (Incidents.moved ses.now m.toState)) rfl
          m.incident id
        by_cases hid : id = m.incident
        · rw [if_pos hid] at hslot
          subst hid
          refine Or.inr ⟨Incidents.moved ses.now m.toState i, ?_, by rw [hxs]; exact hlx, ?_⟩
          · refine hslot.trans ?_
            rw [hxs]
            simp [Slot.write, hvx]
          · have hag := h.visible ht (by rw [hxs]; exact hvx) (by rw [hxs]; exact hlx)
            have hmv := hag.moved hat (hok.legal m hpc) ses.now
            simpa [Session.trail, howed, howed'] using hmv
        · rw [if_neg hid] at hslot
          refine Or.inl ⟨hslot, ?_⟩
          simp [Session.trail, howed, howed', Ne.symm hid]
      · have he' : pc = .appending e move := he
        have howe := howed' id
        rw [he'] at howe
        simp only [hpcd, Pc.appending.injEq] at he'
        obtain ⟨-, rfl⟩ := he'
        simp only [Pc.owed] at howe
        rw [howe]
        simp only [movesOf, Option.toList_some, List.filterMap_cons, List.filterMap_nil]
        split_ifs <;> rfl
    · obtain rfl := Option.some.inj hs
      exact hidle

theorem Inv.appendStmt {hashing : Hashing H} {s s' : Store H} {t : ℕ} {ts : Time} {ses : Session H}
    {e : AuditEntry} {move : Option Transition} (h : s.Inv) (ht : s.sessions t = some ses)
    (hpc : ses.pc = .appending e move) (hs : s.appendStmt hashing t ts ses e move = some s') : s'.Inv := by
  have hok := h.sessions t ses ht
  unfold Store.appendStmt at hs
  split_ifs at hs with hl
  obtain rfl := Option.some.inj hs
  set r := Audit.row hashing s.nextSeq ts e (s.audit ++ ses.appended) with hr
  have hentry : r.entry = e := rfl
  have hlock : s.lock = none ∨ s.lock = some t := by
    cases hq : s.lock with
    | none => exact Or.inl rfl
    | some u => right; simpa [hq] using hl
  have htrail : ∀ id, trail id (ses.appended ++ [r]) = ses.trail id := by
    intro id
    rw [trail_append, trail_singleton, hentry]
    simp only [Session.trail, hpc, Pc.owed]
  refine h.advance
    ht rfl rfl (fun u => rfl) (fun id => Or.inl ⟨rfl, ?_⟩) ⟨by simp, by simp, fun id => ?_⟩
    (Or.inr ⟨rfl, hlock⟩) (Nat.le_succ _) ?_
  · rw [← htrail id]
    simp [Session.trail, Pc.owed]
  · rw [movesOf_append, hok.recorded id, ← hok.pending e move hpc id, trail_append, trail_singleton, hentry]
  · rw [← List.append_assoc]
    exact (h.sessionOrder t ses ht).snoc rfl

theorem Inv.begin {s : Store H} {t : ℕ} (h : s.Inv) (ht : s.sessions t = none) (now : Time) :
    (s.setSession t (some { now })).Inv := by
  have hses : ∀ u su, (s.setSession t (some { now })).sessions u = some su →
      s.sessions u = some su ∨ u = t ∧ su = { now } := by
    intro u su hu
    simp only [setSession] at hu
    split_ifs at hu with hut
    · exact Or.inr ⟨hut, (Option.some.inj hu).symm⟩
    · exact Or.inl hu
  refine ⟨h.committed, h.blank, fun id u i hd => ?_, fun id u su hu hnd => ?_, fun u su hu hne => ?_,
    fun u su hu => ?_, h.order, fun u su hu => ?_, h.moves⟩
  · obtain ⟨su, hu, ha⟩ := h.dirty id u i hd
    have hut : u ≠ t := by rintro rfl; rw [ht] at hu; cases hu
    exact ⟨su, by simp only [setSession, if_neg hut, hu], ha⟩
  · rcases hses u su hu with hu | ⟨rfl, rfl⟩
    · exact h.clean id u su hu hnd
    · rfl
  · rcases hses u su hu with hu | ⟨rfl, rfl⟩
    · exact h.held u su hu hne
    · exact absurd rfl hne
  · rcases hses u su hu with hu | ⟨rfl, rfl⟩
    · exact h.sessions u su hu
    · exact ⟨by simp, by simp, fun id => rfl⟩
  · rcases hses u su hu with hu | ⟨rfl, rfl⟩
    · exact h.sessionOrder u su hu
    · exact (List.append_nil s.audit).symm ▸ h.order

/-- Only the holder of the advisory lock has rows that are not committed. -/
theorem Inv.other_empty {s : Store H} (h : s.Inv) {t u : ℕ} {ses su : Session H}
    (ht : s.sessions t = some ses) (hu : s.sessions u = some su) (hut : u ≠ t)
    (hne : ses.appended ≠ []) : su.appended = [] := by
  by_contra hsu
  have h1 := h.held t ses ht hne
  have h2 := h.held u su hu hsu
  rw [h1] at h2
  exact hut (Option.some.inj h2).symm

theorem slot_settle (s : Store H) (t : ℕ) (ses : Session H) (id : ℕ) :
    (s.commit t ses).slot id = (s.slot id).settle t := slot_update s rfl id

theorem slot_abandon (s : Store H) (t id : ℕ) : (s.rollback t).slot id = (s.slot id).abandon t :=
  slot_update s rfl id

/-- The transaction writes the version it saw last, or leaves the slot as it is. -/
theorem settle_cases (t : ℕ) (x : Slot) :
    (∃ i, x.dirty = some (t, i) ∧ x.settle t = { committed := some i }) ∨
      (∀ i, x.dirty ≠ some (t, i)) ∧ x.settle t = x := by
  unfold Slot.settle
  cases hd : x.dirty with
  | none => exact Or.inr ⟨by simp, rfl⟩
  | some d =>
    obtain ⟨u, i⟩ := d
    by_cases hut : u = t
    · exact Or.inl ⟨i, by rw [hut], by simp [hut]⟩
    · exact Or.inr ⟨by simp [hut], by simp [hut]⟩

theorem abandon_cases (t : ℕ) (x : Slot) :
    (∃ i, x.dirty = some (t, i) ∧ x.abandon t = { x with dirty := none }) ∨
      (∀ i, x.dirty ≠ some (t, i)) ∧ x.abandon t = x := by
  unfold Slot.abandon
  cases hd : x.dirty with
  | none => exact Or.inr ⟨by simp, rfl⟩
  | some d =>
    obtain ⟨u, i⟩ := d
    by_cases hut : u = t
    · exact Or.inl ⟨i, by rw [hut], by simp [hut]⟩
    · exact Or.inr ⟨by simp [hut], by simp [hut]⟩

theorem sessions_ne {s : Store H} {t u : ℕ} {su : Session H}
    (hu : (if u = t then none else s.sessions u) = some su) : u ≠ t ∧ s.sessions u = some su := by
  split_ifs at hu with hut
  exact ⟨hut, hu⟩

/-- The lock stays with the transactions that go on. -/
theorem Inv.unlock {s : Store H} (h : s.Inv) {t u : ℕ} {su : Session H} (hut : u ≠ t)
    (hu : s.sessions u = some su) (hne : su.appended ≠ []) : s.unlock t = some u := by
  have hl := h.held u su hu hne
  simp only [Store.unlock, hl, Option.some.injEq, hut, if_false]

theorem Inv.commit {s : Store H} {t : ℕ} {ses : Session H} (h : s.Inv) (ht : s.sessions t = some ses)
    (hidle : ses.pc = .idle) : (s.commit t ses).Inv := by
  have hok := h.sessions t ses ht
  have htrail : ∀ id, ses.trail id = trail id ses.appended := by
    intro id
    simp [Session.trail, hidle, Pc.owed]
  have haudit : ∀ id, trail id (s.commit t ses).audit = trail id s.audit ++ ses.trail id := by
    intro id
    rw [htrail, ← trail_append]
    rfl
  have hses : ∀ u su, (s.commit t ses).sessions u = some su → u ≠ t ∧ s.sessions u = some su :=
    fun u su hu => sessions_ne hu
  refine ⟨fun id i hi => ?_, fun id hi => ?_, fun id u i hd => ?_, fun id u su hu hnd => ?_,
    fun u su hu hne => ?_, fun u su hu => ?_, ?_, fun u su hu => ?_, fun id => ?_⟩
  · rw [slot_settle] at hi
    rw [haudit]
    rcases settle_cases t (s.slot id) with ⟨j, hd, hx⟩ | ⟨hnd, hx⟩
    · rw [hx] at hi
      obtain rfl := Option.some.inj hi
      obtain ⟨ses', ht', ha⟩ := h.dirty id t j hd
      rw [ht] at ht'
      obtain rfl := Option.some.inj ht'
      exact ha
    · rw [hx] at hi
      rw [h.clean id t ses ht hnd, List.append_nil]
      exact h.committed id i hi
  · rw [slot_settle] at hi
    rw [haudit]
    rcases settle_cases t (s.slot id) with ⟨j, hd, hx⟩ | ⟨hnd, hx⟩
    · rw [hx] at hi
      cases hi
    · rw [hx] at hi
      rw [h.clean id t ses ht hnd, h.blank id hi]
      rfl
  · rw [slot_settle] at hd
    rw [haudit]
    rcases settle_cases t (s.slot id) with ⟨j, -, hx⟩ | ⟨hnd, hx⟩
    · rw [hx] at hd
      cases hd
    · rw [hx] at hd
      obtain ⟨su, hu, ha⟩ := h.dirty id u i hd
      have hut : u ≠ t := by rintro rfl; exact hnd i hd
      refine ⟨su, by simp only [Store.commit, setSession, if_neg hut, hu], ?_⟩
      rw [h.clean id t ses ht hnd, List.append_nil]
      exact ha
  · obtain ⟨hut, hu⟩ := hses u su hu
    refine h.clean id u su hu fun i hd => ?_
    rw [slot_settle] at hnd
    rcases settle_cases t (s.slot id) with ⟨j, hdt, -⟩ | ⟨-, hx⟩
    · rw [hdt] at hd
      simp only [Option.some.injEq, Prod.mk.injEq] at hd
      exact hut hd.1.symm
    · rw [hx] at hnd
      exact hnd i hd
  · obtain ⟨hut, hu⟩ := hses u su hu
    exact h.unlock hut hu hne
  · exact h.sessions u su (hses u su hu).2
  · exact h.sessionOrder t ses ht
  · obtain ⟨hut, hu⟩ := hses u su hu
    have hord := h.sessionOrder u su hu
    by_cases hne : ses.appended = []
    · simpa [Store.commit, setSession, hne] using hord
    · rw [h.other_empty ht hu hut hne, List.append_nil]
      exact h.sessionOrder t ses ht
  · rw [haudit, htrail, ← hok.recorded id, ← h.moves id, ← movesOf_append]
    rfl

theorem Inv.rollback {s : Store H} {t : ℕ} (h : s.Inv) : (s.rollback t).Inv := by
  have hses : ∀ u su, (s.rollback t).sessions u = some su → u ≠ t ∧ s.sessions u = some su :=
    fun u su hu => sessions_ne hu
  have hcommitted : ∀ id, ((s.rollback t).slot id).committed = (s.slot id).committed := by
    intro id
    rw [slot_abandon]
    rcases abandon_cases t (s.slot id) with ⟨_, _, hx⟩ | ⟨_, hx⟩ <;> rw [hx]
  refine ⟨fun id i hi => h.committed id i (hcommitted id ▸ hi), fun id hi => h.blank id (hcommitted id ▸ hi),
    fun id u i hd => ?_, fun id u su hu hnd => ?_, fun u su hu hne => ?_,
    fun u su hu => h.sessions u su (hses u su hu).2, h.order,
    fun u su hu => h.sessionOrder u su (hses u su hu).2, h.moves⟩
  · rw [slot_abandon] at hd
    rcases abandon_cases t (s.slot id) with ⟨j, -, hx⟩ | ⟨hnd, hx⟩
    · rw [hx] at hd
      cases hd
    · rw [hx] at hd
      obtain ⟨su, hu, ha⟩ := h.dirty id u i hd
      have hut : u ≠ t := by rintro rfl; exact hnd i hd
      exact ⟨su, by simp only [Store.rollback, setSession, if_neg hut, hu], ha⟩
  · obtain ⟨hut, hu⟩ := hses u su hu
    refine h.clean id u su hu fun i hd => ?_
    rw [slot_abandon] at hnd
    rcases abandon_cases t (s.slot id) with ⟨j, hdt, -⟩ | ⟨-, hx⟩
    · rw [hdt] at hd
      simp only [Option.some.injEq, Prod.mk.injEq] at hd
      exact hut hd.1.symm
    · rw [hx] at hnd
      exact hnd i hd
  · obtain ⟨hut, hu⟩ := hses u su hu
    exact h.unlock hut hu hne

theorem Inv.next {hashing : Hashing H} {s s' : Store H} {t : ℕ} {ts : Time} {ses : Session H}
    (h : s.Inv) (ht : s.sessions t = some ses) (hs : s.next hashing t ts ses = some s') : s'.Inv := by
  unfold Store.next at hs
  split at hs
  case h_1 => cases hs
  case h_2 => cases hs
  case h_3 hpc => exact h.insertStmt ht hpc hs
  case h_4 hpc => exact h.mergeStmt ht hpc hs
  case h_5 hpc => exact h.moveStmt ht hpc hs
  case h_6 hpc => exact h.appendStmt ht hpc hs

theorem step_inv {hashing : Hashing H} {s s' : Store H} {op : StoreOp} (h : s.Inv)
    (hs : s.step hashing op = some s') : s'.Inv := by
  cases op with
  | begin t now =>
    simp only [step] at hs
    split_ifs at hs with ht
    obtain rfl := Option.some.inj hs
    exact h.begin (by simpa using ht) now
  | call t c =>
    obtain ⟨ses, ht, hs⟩ := Option.bind_eq_some_iff.mp hs
    split at hs
    · rename_i hpc
      exact h.call ht hpc hs
    · cases hs
  | next t ts =>
    obtain ⟨ses, ht, hs⟩ := Option.bind_eq_some_iff.mp hs
    exact h.next ht hs
  | commit t =>
    obtain ⟨ses, ht, hs⟩ := Option.bind_eq_some_iff.mp hs
    split at hs
    · rename_i hpc
      obtain rfl := Option.some.inj hs
      exact h.commit ht hpc
    · cases hs
  | rollback t =>
    obtain ⟨ses, -, rfl⟩ := Option.map_eq_some_iff.mp hs
    exact h.rollback

theorem run_inv {hashing : Hashing H} {ops : List StoreOp} {s : Store H}
    (h : Runs.run (step hashing) init ops = some s) : s.Inv :=
  Runs.invariant (P := Inv) (fun _ _ _ hi hs => step_inv hi hs) h init_inv

/-- The log is append-only. -/
theorem audit_prefix {hashing : Hashing H} {s s' : Store H} {op : StoreOp}
    (hs : s.step hashing op = some s') : s.audit <+: s'.audit := by
  cases op with
  | begin t now =>
    simp only [step] at hs
    split_ifs at hs
    obtain rfl := Option.some.inj hs
    exact List.prefix_rfl
  | call t c =>
    obtain ⟨ses, -, hs⟩ := Option.bind_eq_some_iff.mp hs
    split at hs
    · cases c with
      | openOrMerge o => obtain rfl := Option.some.inj hs; exact List.prefix_rfl
      | transition m =>
        simp only [Store.call] at hs
        split at hs <;> (obtain rfl := Option.some.inj hs; exact List.prefix_rfl)
      | append e =>
        simp only [Store.call] at hs
        split_ifs at hs
        obtain rfl := Option.some.inj hs
        exact List.prefix_rfl
    · cases hs
  | next t ts =>
    obtain ⟨ses, -, hs⟩ := Option.bind_eq_some_iff.mp hs
    unfold Store.next at hs
    split at hs
    case h_1 => cases hs
    case h_2 => cases hs
    case h_3 =>
      unfold Store.insertStmt at hs
      split_ifs at hs <;> (obtain rfl := Option.some.inj hs; exact List.prefix_rfl)
    case h_4 =>
      unfold Store.mergeStmt at hs
      split_ifs at hs <;> (obtain rfl := Option.some.inj hs; exact List.prefix_rfl)
    case h_5 =>
      unfold Store.moveStmt at hs
      split at hs
      · obtain rfl := Option.some.inj hs
        exact List.prefix_rfl
      · split_ifs at hs <;> (obtain rfl := Option.some.inj hs; exact List.prefix_rfl)
    case h_6 =>
      unfold Store.appendStmt at hs
      split_ifs at hs
      obtain rfl := Option.some.inj hs
      exact List.prefix_rfl
  | commit t =>
    obtain ⟨ses, -, hs⟩ := Option.bind_eq_some_iff.mp hs
    split at hs
    · obtain rfl := Option.some.inj hs
      exact List.prefix_append _ _
    · cases hs
  | rollback t =>
    obtain ⟨ses, -, rfl⟩ := Option.map_eq_some_iff.mp hs
    exact List.prefix_rfl

theorem incident?_eq (s : Store H) (id : ℕ) : s.incident? id = (s.slot id).committed := by
  unfold incident? slot
  cases s.slots.get? id <;> rfl

/-- A terminal state is never left: the trail would have to go on from it. -/
theorem run_terminal {hashing : Hashing H} {s s' : Store H} {ops : List StoreOp} (h : s.Inv)
    (hrun : Runs.run (step hashing) s ops = some s') {id : ℕ} {i : Incident}
    (hi : s.incident? id = some i) (ht : i.state ∈ Incidents.TERMINAL) :
    ∃ i', s'.incident? id = some i' ∧ i'.state = i.state := by
  rw [incident?_eq] at hi
  have hinv : s'.Inv := Runs.invariant (P := Inv) (fun _ _ _ hi hs => step_inv hi hs) hrun h
  have hpre : s.audit <+: s'.audit := Runs.related (P := fun _ => True)
    (R := fun a b => a.audit <+: b.audit) (fun _ => List.prefix_rfl) (fun _ _ _ => List.IsPrefix.trans)
    (fun _ _ _ _ _ => trivial) (fun _ _ _ _ hs => audit_prefix hs) hrun trivial
  obtain ⟨rows, hrows⟩ := hpre
  have hag := h.committed id i hi
  cases hc : (s'.slot id).committed with
  | some i' =>
    have hag' := (hinv.committed id i' hc).journal
    rw [← hrows, trail_append] at hag'
    refine ⟨i', by rw [incident?_eq, hc], ?_⟩
    exact (hag.journal.stuck hag' (not_allowed_of_terminal ht)).2
  | none =>
    have hb := hinv.blank id hc
    rw [← hrows, trail_append] at hb
    have hp := hag.journal.path
    rw [(List.append_eq_nil_iff.mp hb).1] at hp
    simp only [List.map_nil, List.nil_append, List.cons.injEq, and_true] at hp
    rw [hp] at ht
    exact absurd ht (by decide)

end Store

/-- What the trail of an incident says, and that it is all true of the row. -/
structure TrailAgrees {H : Type} (hashing : Hashing H) (s : Store H) (id : ℕ) (i : Incident) : Prop where
  /-- The list order of the log is its `seq` order. -/
  ordered : s.audit.Pairwise fun a b => a.seq < b.seq
  /-- From RECEIVED, each move starting where the last one ended, to the present state. -/
  path : (trail id s.audit).map Entry.src ++ [i.state] = .received :: (trail id s.audit).map Entry.dst
  allowed : ∀ e ∈ trail id s.audit, Incidents.checkTransition e.src e.dst = .ok ()
  versions : (trail id s.audit).map Entry.version = List.range' 2 (trail id s.audit).length
  version : i.version = 1 + (trail id s.audit).length
  closed : i.closedAt.isSome = true ↔ i.state ∈ Incidents.TERMINAL
  never_left : i.state ∈ Incidents.TERMINAL → ∀ ops s', Runs.run (Store.step hashing) s ops = some s' →
    ∃ i', s'.incident? id = some i' ∧ i'.state = i.state
  /-- No two committed calls of `transition` expected the same version of the incident. -/
  one_winner : (s.moves.filter fun m => m.incident = id).Pairwise
    fun a b => a.expectedVersion ≠ b.expectedVersion

theorem movesOf_versions (id : ℕ) (ms : List Transition) :
    (movesOf id ms).map Entry.version =
      (ms.filter fun m => m.incident = id).map fun m => m.expectedVersion + 1 := by
  induction ms with
  | nil => rfl
  | cons m ms ih =>
    by_cases hm : m.incident = id <;> simp_all [movesOf]

theorem trail_agrees {H : Type} {hashing : Hashing H} {ops : List StoreOp} {s : Store H}
    (h : Runs.run (Store.step hashing) .init ops = some s) {id : ℕ} {i : Incident}
    (hi : s.incident? id = some i) : TrailAgrees hashing s id i := by
  have hinv := Store.run_inv h
  have hag := hinv.committed id i (by rwa [← Store.incident?_eq])
  refine ⟨hinv.order.1, hag.journal.path, hag.journal.allowed_mem, hag.journal.versions,
    hag.journal.version_eq, hag.closed, fun ht ops' s' hrun => Store.run_terminal hinv hrun hi ht, ?_⟩
  have hnd := hag.journal.nodup
  rw [← hinv.moves id, movesOf_versions] at hnd
  refine (List.pairwise_map.mp hnd).imp ?_
  intro a b hab heq
  exact hab (by rw [heq])

/-- An incident, and two transactions that move it from the same version: the second waits for
the first and is then refused. Its hash of a row is all that went into it. -/
def raced : List StoreOp :=
  let o : Opening := { tenantId := "t1", fingerprint := "f", title := "HighErrorRate", service := "payment",
                       environment := "prod", priority := 1, labels := [] }
  let m : Transition := ⟨0, .received, .triaged, 1, .worker "w1", "accepted for investigation"⟩
  [.begin 1 0, .call 1 (.openOrMerge o), .next 1 0, .commit 1,
    .begin 2 5, .begin 3 5, .call 2 (.transition m), .call 3 (.transition m), .next 2 5, .next 2 6,
    .commit 2, .next 3 6, .rollback 3]

def racedHashing : Hashing (List (Time × AuditEntry)) := ⟨[], fun prev ts e => (ts, e) :: prev⟩

def racedStore : Store (List (Time × AuditEntry)) :=
  (Runs.run (Store.step racedHashing) .init raced).getD .init

theorem trail_agrees_raced :
    TrailAgrees racedHashing racedStore 0
      { tenantId := "t1", fingerprint := "f", title := "HighErrorRate", service := "payment",
        environment := "prod", priority := 1, labels := [], state := .triaged, version := 2,
        createdAt := 0, updatedAt := 5 } :=
  @trail_agrees _ racedHashing raced racedStore rfl 0 _ (by decide +kernel)

end Blackboard
