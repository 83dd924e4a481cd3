import Blackboard.Spec.Stream
import Blackboard.Proofs.AuditLog

/-! The audit events that a client gets over all its connections are the committed rows after its
start cursor: the lock makes the commits come in `seq` order, so a poll passes no row that is yet
to be committed. -/

namespace Blackboard.Stream

/-! The text of a cursor. -/

theorem parse_str (c : Cursor) : Cursor.parse (some c.str) = some c := by
  have hdot : ∀ l ∈ [Nat.toDigits 10 c.audit, Nat.toDigits 10 c.llm, Nat.toDigits 10 c.tool], '.' ∉ l := by
    intro l hl hmem
    have hdigit : Char.isDigit '.' = true := by
      rcases List.mem_cons.mp hl with rfl | hl
      · exact Nat.isDigit_of_mem_toDigits (by decide) (by decide) hmem
      rcases List.mem_cons.mp hl with rfl | hl
      · exact Nat.isDigit_of_mem_toDigits (by decide) (by decide) hmem
      · rw [List.mem_singleton.mp hl] at hmem
        exact Nat.isDigit_of_mem_toDigits (by decide) (by decide) hmem
    exact absurd hdigit (by decide)
  rw [Cursor.parse, Option.getD_some, Cursor.str, List.splitOn_intercalate _ hdot (by simp)]
  simp [Strings.int?_toDigits]

/-! Rows between two positions. -/

variable {t : String} {rows new : List AuditLog.Row} {a b c : ℕ}

/-- The tenant's rows after position `a`, up to `b`. -/
def between (t : String) (rows : List AuditLog.Row) (a b : ℕ) : List AuditLog.Row :=
  rows.filter fun r => r.entry.tenantId = some t ∧ a < r.seq ∧ r.seq ≤ b

theorem between_self : between t rows a a = [] := by
  refine List.filter_eq_nil_iff.mpr fun r _ h => ?_
  have := of_decide_eq_true h
  omega

theorem between_append (hs : rows.Pairwise fun x y => x.seq < y.seq) (hab : a ≤ b) (hbc : b ≤ c) :
    between t rows a b ++ between t rows b c = between t rows a c := by
  unfold between
  induction rows with
  | nil => rfl
  | cons r rows ih =>
    obtain ⟨hr, hs⟩ := List.pairwise_cons.mp hs
    have ih := ih hs
    by_cases h1 : r.entry.tenantId = some t ∧ a < r.seq ∧ r.seq ≤ b
    · have h2 : ¬ (r.entry.tenantId = some t ∧ b < r.seq ∧ r.seq ≤ c) := fun h => by omega
      have h3 : r.entry.tenantId = some t ∧ a < r.seq ∧ r.seq ≤ c := ⟨h1.1, h1.2.1, h1.2.2.trans hbc⟩
      rw [List.filter_cons_of_pos (by simpa using h1), List.filter_cons_of_neg (by simpa using h2),
        List.filter_cons_of_pos (by simpa using h3), List.cons_append, ih]
    by_cases h2 : r.entry.tenantId = some t ∧ b < r.seq ∧ r.seq ≤ c
    · have hno : rows.filter (fun x => x.entry.tenantId = some t ∧ a < x.seq ∧ x.seq ≤ b) = [] := by
        refine List.filter_eq_nil_iff.mpr fun x hx h => ?_
        have hlt := hr x hx
        have hle := of_decide_eq_true h
        omega
      rw [hno, List.nil_append] at ih
      have h3 : r.entry.tenantId = some t ∧ a < r.seq ∧ r.seq ≤ c := ⟨h2.1, hab.trans_lt h2.2.1, h2.2.2⟩
      rw [List.filter_cons_of_neg (by simpa using h1), List.filter_cons_of_pos (by simpa using h2),
        List.filter_cons_of_pos (by simpa using h3), hno, List.nil_append, ih]
    · rw [List.filter_cons_of_neg (by simpa using h1), List.filter_cons_of_neg (by simpa using h2),
        List.filter_cons_of_neg, ih]
      intro h3
      have h3 := of_decide_eq_true h3
      rcases Nat.lt_or_ge b r.seq with h | h
      · exact h2 ⟨h3.1, h, h3.2.2⟩
      · exact h1 ⟨h3.1, h3.2.1, h⟩

/-- A position that later rows come after: it is the interval's start, or the number of a row. -/
def Stable (rows : List AuditLog.Row) (a b : ℕ) : Prop := b = a ∨ ∃ r ∈ rows, r.seq = b

theorem Stable.append (h : Stable rows a b) : Stable (rows ++ new) a b := by
  rcases h with h | ⟨r, hr, h⟩
  · exact .inl h
  · exact .inr ⟨r, List.mem_append_left _ hr, h⟩

theorem between_grow (h : Stable rows a b) (hnew : ∀ r ∈ rows, ∀ r' ∈ new, r.seq < r'.seq) :
    between t (rows ++ new) a b = between t rows a b := by
  rcases h with rfl | ⟨r, hr, rfl⟩
  · rw [between_self, between_self]
  · have hno : new.filter (fun x => x.entry.tenantId = some t ∧ a < x.seq ∧ x.seq ≤ r.seq) = [] := by
      refine List.filter_eq_nil_iff.mpr fun x hx h => ?_
      have hlt := hnew r hr x hx
      have hle := of_decide_eq_true h
      omega
    rw [between, List.filter_append, hno, List.append_nil, between]

/-- The first of the rows after `a` is the only one up to itself. -/
theorem between_first {r : AuditLog.Row} {rest : List AuditLog.Row} (hs : rows.Pairwise fun x y => x.seq < y.seq)
    (h : rows.filter (fun r => r.entry.tenantId = some t ∧ a < r.seq) = r :: rest) :
    between t rows a r.seq = [r] ∧ rows.filter (fun x => x.entry.tenantId = some t ∧ r.seq < x.seq) = rest ∧
      r ∈ rows ∧ a < r.seq := by
  have hsub : (r :: rest).Pairwise fun x y => x.seq < y.seq := h ▸ hs.filter _
  obtain ⟨hlt, -⟩ := List.pairwise_cons.mp hsub
  have hr : r ∈ rows.filter (fun r => r.entry.tenantId = some t ∧ a < r.seq) := h ▸ List.mem_cons_self
  obtain ⟨hmem, hra⟩ := List.mem_filter.mp hr
  have hra := of_decide_eq_true hra
  have hbetween : between t rows a r.seq = (r :: rest).filter fun x => x.seq ≤ r.seq := by
    rw [← h, List.filter_filter, between]
    refine List.filter_congr fun x _ => ?_
    rw [Bool.eq_iff_iff]
    simp only [Bool.and_eq_true, decide_eq_true_eq]
    tauto
  have hafter : rows.filter (fun x => x.entry.tenantId = some t ∧ r.seq < x.seq) =
      (r :: rest).filter fun x => r.seq < x.seq := by
    rw [← h, List.filter_filter]
    refine List.filter_congr fun x _ => ?_
    rw [Bool.eq_iff_iff]
    simp only [Bool.and_eq_true, decide_eq_true_eq]
    constructor
    · exact fun hx => ⟨hx.2, hx.1, hra.2.trans hx.2⟩
    · exact fun hx => ⟨hx.2.1, hx.1⟩
  refine ⟨?_, ?_, hmem, hra.2⟩
  · rw [hbetween, List.filter_cons_of_pos (by simp), List.filter_eq_nil_iff.mpr]
    intro x hx h
    have h1 := hlt x hx
    have h2 := of_decide_eq_true h
    omega
  · rw [hafter, List.filter_cons_of_neg (by simp), List.filter_eq_self.mpr]
    exact fun x hx => decide_eq_true (hlt x hx)

/-! Frames on their way. -/

def Event.row : Event → Option AuditLog.Row
  | .audit r => some r
  | _ => none

/-- The audit rows of frames. -/
def auditOf (fs : List Frame) : List AuditLog.Row := fs.filterMap fun f => f.event.row

/-- Frames that take a reader of the audit rows from position `a` to `b`, each of them as far as
its id says. -/
def Flows (t : String) (rows : List AuditLog.Row) : ℕ → List Frame → ℕ → Prop
  | a, [], b => a = b
  | a, f :: fs, b =>
    a ≤ f.id.audit ∧ Stable rows a f.id.audit ∧ f.event.row.toList = between t rows a f.id.audit ∧
      Flows t rows f.id.audit fs b

theorem Flows.append {fs gs : List Frame} (hf : Flows t rows a fs b) (hg : Flows t rows b gs c) :
    Flows t rows a (fs ++ gs) c := by
  induction fs generalizing a with
  | nil =>
    obtain rfl : a = b := hf
    exact hg
  | cons f fs ih =>
    obtain ⟨hle, hstable, hrow, hrest⟩ := hf
    exact ⟨hle, hstable, hrow, ih hrest⟩

theorem Flows.grow {fs : List Frame} (h : Flows t rows a fs b) (hnew : ∀ r ∈ rows, ∀ r' ∈ new, r.seq < r'.seq) :
    Flows t (rows ++ new) a fs b := by
  induction fs generalizing a with
  | nil => exact h
  | cons f fs ih =>
    obtain ⟨hle, hstable, hrow, hrest⟩ := h
    exact ⟨hle, hstable.append, hrow.trans (between_grow hstable hnew).symm, ih hrest⟩

/-- A poll's audit frames: the first rows after its cursor, however many. -/
theorem flows_rows (hs : rows.Pairwise fun x y => x.seq < y.seq) (llm tool n : ℕ) (a : ℕ) :
    let got := (rows.filter fun r => r.entry.tenantId = some t ∧ a < r.seq).take n
    Flows t rows a (got.map fun r => { event := .audit r, id := ⟨r.seq, llm, tool⟩ })
      ((got.getLast?.map AuditLog.Row.seq).getD a) := by
  induction n generalizing a with
  | zero => rfl
  | succ n ih =>
    dsimp only
    rcases h : rows.filter (fun r => r.entry.tenantId = some t ∧ a < r.seq) with _ | ⟨r, rest⟩
    · rw [h]
      rfl
    · rw [h]
      obtain ⟨hfirst, hafter, hmem, hlt⟩ := between_first hs h
      have ih := ih r.seq
      simp only [hafter] at ih
      refine ⟨hlt.le, .inr ⟨r, hmem, rfl⟩, hfirst.symm, ?_⟩
      have hlast : ((r :: rest.take n).getLast?.map AuditLog.Row.seq).getD a =
          ((rest.take n).getLast?.map AuditLog.Row.seq).getD r.seq := by
        rcases rest.take n with _ | ⟨x, xs⟩
        · rfl
        · rw [List.getLast?_cons_cons]
          rcases hx : (x :: xs).getLast? with _ | y
          · simp at hx
          · rfl
      simp only [List.take_succ_cons, hlast]
      exact ih

theorem Flows.stable {fs : List Frame} (h : Flows t rows a fs b) : Stable rows a b := by
  induction fs generalizing a with
  | nil => exact .inl (Eq.symm h)
  | cons f fs ih =>
    obtain ⟨-, hstable, -, hrest⟩ := h
    rcases ih hrest with rfl | hrow
    · exact hstable
    · exact .inr hrow

theorem Flows.rows_eq {fs : List Frame} (hs : rows.Pairwise fun x y => x.seq < y.seq) (h : Flows t rows a fs b) :
    a ≤ b ∧ auditOf fs = between t rows a b := by
  induction fs generalizing a with
  | nil =>
    obtain rfl : a = b := h
    exact ⟨le_rfl, between_self.symm⟩
  | cons f fs ih =>
    obtain ⟨hle, -, hrow, hrest⟩ := h
    obtain ⟨hle', hrows⟩ := ih hrest
    refine ⟨hle.trans hle', ?_⟩
    have hcons : auditOf (f :: fs) = f.event.row.toList ++ auditOf fs := by
      unfold auditOf
      rcases h : f.event.row with _ | r <;> simp [h]
    rw [hcons, hrow, hrows, between_append hs hle hle']

/-- The position after the frames that arrived. -/
theorem Flows.arrived {fs gs : List Frame} (h : Flows t rows a (fs ++ gs) b) :
    Flows t rows a fs ((fs.getLast?.map fun f => f.id.audit).getD a) := by
  induction fs generalizing a with
  | nil => rfl
  | cons f fs ih =>
    obtain ⟨hle, hstable, hrow, hrest⟩ := h
    refine ⟨hle, hstable, hrow, ?_⟩
    have ih := ih hrest
    rcases fs with _ | ⟨g, fs⟩
    · exact ih
    · rw [List.getLast?_cons_cons]
      rcases hl : (g :: fs).getLast? with _ | x
      · simp at hl
      · rw [hl] at ih
        exact ih

/-- Frames of other events stay where they are. -/
theorem flows_still {fs : List Frame} (h : ∀ f ∈ fs, f.event.row = none ∧ f.id.audit = a) : Flows t rows a fs a := by
  induction fs with
  | nil => rfl
  | cons f fs ih =>
    obtain ⟨hrow, hid⟩ := h f List.mem_cons_self
    rw [Flows, hid]
    exact ⟨le_rfl, .inl rfl, by rw [hrow, between_self]; rfl, ih fun g hg => h g (List.mem_cons_of_mem _ hg)⟩

/-! The world. -/

def Client.start (c : Client) : Cursor := (c.delivered.head?.map Frame.id).getD {}

def Client.cursor (c : Client) : Cursor := (c.delivered.getLast?.map Frame.id).getD {}

namespace World

/-- What arrived and what is on its way. -/
def path (w : World) : List Frame := w.client.delivered ++ (w.conn.map Connection.wire).getD []

def origin (w : World) : Cursor := (w.path.head?.map Frame.id).getD {}

/-- How far the frames of the path go. -/
def reach (w : World) : Cursor := (w.conn.map Connection.cursor).getD w.client.cursor

end World

/-- The audit rows that a poll has read and not sent. -/
def Changes.got : Changes → List AuditLog.Row
  | .audit => []
  | .llm rows => rows
  | .tool rows _ _ => rows

/-- How far the last poll read the audit table, if it had a row left to read. -/
def Connection.polledTo (k : Connection) : ℕ := (k.stage.got.getLast?.map AuditLog.Row.seq).getD k.cursor.audit

def auditFrames (since : Cursor) (rows : List AuditLog.Row) : List Frame :=
  rows.map fun r => { event := .audit r, id := ⟨r.seq, since.llm, since.tool⟩ }

/-- The last poll stopped short of a row only if it got all that it may. -/
structure Connection.Polled (t : String) (n : ℕ) (rows : List AuditLog.Row) (origin : ℕ) (k : Connection)
    (held : List AuditLog.Row) (m : ℕ) : Prop where
  earlier : ∃ later, rows = held ++ later
  stable : Stable held origin k.polledTo
  all : m < n → ∀ r ∈ held, r.entry.tenantId = some t → r.seq ≤ k.polledTo

structure Delivers (sha256 : String → String) (t : String) (n : ℕ) (w : World) : Prop where
  chain : AuditLog.Inv sha256 w.audit
  lastId : w.client.lastId = w.client.delivered.getLast?.map fun f => f.id.str
  opened : w.conn ≠ none → w.path ≠ []
  flows : Flows t w.audit.committed w.origin.audit w.path w.reach.audit
  reads : ∀ k, w.conn = some k → Flows t w.audit.committed k.cursor.audit (auditFrames k.cursor k.stage.got) k.polledTo
  polled : ∀ k held m, w.conn = some k → k.polled = some (held, m) →
    k.Polled t n w.audit.committed w.origin.audit held m

variable {sha256 : String → String} {n : ℕ} {w w' : World}

theorem committed_sorted {s : AuditLog.State} (h : AuditLog.Inv sha256 s) :
    s.committed.Pairwise fun x y => x.seq < y.seq :=
  (List.pairwise_append.mp h.sorted).1

theorem committed_grows {s s' : AuditLog.State} {op : AuditLog.Op} (h : AuditLog.step sha256 s op = some s') :
    ∃ new, s'.committed = s.committed ++ new := by
  have hsame : ∃ new, s.committed = s.committed ++ new := ⟨[], (List.append_nil _).symm⟩
  cases op with
  | begin =>
    obtain rfl := Option.some.inj h
    exact hsame
  | append t a =>
    obtain ⟨x, -, h⟩ := Option.bind_eq_some_iff.mp h
    cases hpc : x.pc <;> rw [hpc] at h <;> cases h
    exact hsame
  | next t now =>
    obtain ⟨x, -, h⟩ := Option.bind_eq_some_iff.mp h
    cases hpc : x.pc with
    | idle | failed | ended =>
      rw [hpc] at h
      cases h
    | locking a =>
      rw [hpc] at h
      simp only [AuditLog.State.lockStmt] at h
      split_ifs at h
      obtain rfl := Option.some.inj h
      exact hsame
    | reading a =>
      rw [hpc] at h
      obtain rfl := Option.some.inj h
      exact hsame
    | inserting a p =>
      rw [hpc] at h
      simp only [AuditLog.State.insertStmt] at h
      split_ifs at h
      · obtain rfl := Option.some.inj h
        exact hsame
      · obtain rfl := Option.some.inj h
        exact hsame
  | commit t =>
    obtain ⟨x, -, h⟩ := Option.bind_eq_some_iff.mp h
    cases hpc : x.pc <;> rw [hpc] at h <;> cases h
    exact ⟨x.own, rfl⟩
  | rollback t =>
    obtain ⟨x, -, h⟩ := Option.bind_eq_some_iff.mp h
    cases hpc : x.pc <;> rw [hpc] at h <;> cases h <;> exact hsame

theorem Delivers.of_eq (h : Delivers sha256 t n w) (ha : w'.audit = w.audit) (hk : w'.conn = w.conn)
    (hc : w'.client = w.client) : Delivers sha256 t n w' := by
  obtain ⟨a, l, m, k, c⟩ := w
  obtain ⟨a', l', m', k', c'⟩ := w'
  obtain rfl : a' = a := ha
  obtain rfl : k' = k := hk
  obtain rfl : c' = c := hc
  exact ⟨h.chain, h.lastId, h.opened, h.flows, h.reads, h.polled⟩

theorem Delivers.audit (h : Delivers sha256 t n w) {op : AuditLog.Op} {a' : AuditLog.State}
    (hhex : ∀ text, sha256 text ≠ "") (hstep : AuditLog.step sha256 w.audit op = some a') :
    Delivers sha256 t n { w with audit := a' } := by
  have hchain := AuditLog.inv_step hhex h.chain hstep
  obtain ⟨new, hgrow⟩ := committed_grows hstep
  have hsorted := committed_sorted hchain
  rw [hgrow] at hsorted
  have hnew : ∀ r ∈ w.audit.committed, ∀ r' ∈ new, r.seq < r'.seq := (List.pairwise_append.mp hsorted).2.2
  refine ⟨hchain, h.lastId, h.opened, ?_, fun k hk => ?_, fun k held m hk hpolled => ?_⟩
  · simp only [hgrow]
    exact h.flows.grow hnew
  · simp only [hgrow]
    exact (h.reads k hk).grow hnew
  · obtain ⟨⟨later, hlater⟩, hstable, hall⟩ := h.polled k held m hk hpolled
    exact ⟨⟨later ++ new, by rw [hgrow, hlater, List.append_assoc]⟩, hstable, hall⟩

theorem cursor_of_lastId (h : Delivers sha256 t n w) (hne : w.client.delivered ≠ [])
    (lastEventId : Option (List Char)) :
    Cursor.parse (w.client.lastId <|> lastEventId) = some w.client.cursor := by
  obtain ⟨f, hf⟩ : ∃ f, w.client.delivered.getLast? = some f := ⟨_, List.getLast?_eq_some_getLast hne⟩
  rw [h.lastId, Client.cursor, hf]
  exact parse_str f.id

theorem Delivers.connect (h : Delivers sha256 t n w) (hconn : w.conn = none) (lastEventId : Option (List Char)) :
    Delivers sha256 t n (w.connect t lastEventId) := by
  obtain ⟨a, l, m, k, c⟩ := w
  obtain rfl : k = none := hconn
  generalize hw : World.connect t ⟨a, l, m, none, c⟩ lastEventId = w'
  obtain ⟨start, hstart⟩ : ∃ start, start = (Cursor.parse (c.lastId <|> lastEventId)).getD
      (World.now ⟨a, l, m, none, c⟩ t) :=
    ⟨_, rfl⟩
  have ha : w'.audit = a := by rw [← hw]; rfl
  have hk : w'.conn = some { cursor := start, wire := [{ event := .ready, id := start }] } := by rw [← hw, hstart]; rfl
  have hd : w'.client.delivered = c.delivered := by
    rw [← hw, World.connect]
    split_ifs <;> rfl
  have hl : w'.client.lastId = c.lastId := by
    rw [← hw, World.connect]
    split_ifs <;> rfl
  have hpath : w'.path = c.delivered ++ [{ event := .ready, id := start }] := by rw [World.path, hk, hd]; rfl
  have hreach : w'.reach = start := by rw [World.reach, hk]; rfl
  refine ⟨ha ▸ h.chain, by rw [hl, hd]; exact h.lastId, fun _ => by rw [hpath]; simp, ?_, fun k hk' => ?_,
    fun k held m hk' hp => ?_⟩
  · rw [ha, hreach, World.origin, hpath]
    have hready : Flows t a.committed start.audit [{ event := .ready, id := start }] start.audit :=
      flows_still fun f hf => by rw [List.mem_singleton.mp hf]; exact ⟨rfl, rfl⟩
    rcases hc : c.delivered with _ | ⟨f, fs⟩
    · exact hready
    · have hcursor := cursor_of_lastId h (by rw [hc]; simp) lastEventId
      obtain rfl : start = c.cursor := by rw [hstart, hcursor]; rfl
      have hflows := h.flows
      rw [World.origin, World.path, World.reach] at hflows
      simp only [hc, Option.map_none, Option.getD_none, List.append_nil] at hflows
      exact hflows.append hready
  · rw [hk] at hk'
    obtain rfl := Option.some.inj hk'
    rfl
  · rw [hk] at hk'
    obtain rfl := Option.some.inj hk'
    cases hp

theorem Delivers.cut (h : Delivers sha256 t n w) : Delivers sha256 t n { w with conn := none } := by
  refine ⟨h.chain, h.lastId, fun hk => absurd rfl hk, ?_, fun k hk => (by cases hk), fun k held m hk => (by cases hk)⟩
  have hflows := h.flows
  unfold World.origin World.path World.reach
  simp only [Option.map_none, Option.getD_none, List.append_nil]
  rw [World.origin, World.path] at hflows
  rcases hd : w.client.delivered with _ | ⟨f, fs⟩
  · simp only [Client.cursor, hd]
    rfl
  · rw [hd] at hflows
    have harrived := hflows.arrived
    obtain ⟨g, hg⟩ : ∃ g, (f :: fs).getLast? = some g := ⟨_, List.getLast?_eq_some_getLast (List.cons_ne_nil _ _)⟩
    simp only [Client.cursor, hd, hg] at harrived ⊢
    exact harrived

theorem Delivers.deliver (h : Delivers sha256 t n w) {k : Connection} (hk : w.conn = some k)
    (hstep : w.deliver k = some w') : Delivers sha256 t n w' := by
  unfold World.deliver at hstep
  rcases hwire : k.wire with _ | ⟨f, rest⟩
  · rw [hwire] at hstep
    cases hstep
  rw [hwire] at hstep
  obtain rfl := Option.some.inj hstep
  have hpath : World.path { w with
      conn := some { k with wire := rest }
      client := { w.client with lastId := some f.id.str, delivered := w.client.delivered ++ [f] } } = w.path := by
    simp [World.path, hk, hwire]
  have horigin : World.origin { w with
      conn := some { k with wire := rest }
      client := { w.client with lastId := some f.id.str, delivered := w.client.delivered ++ [f] } } = w.origin := by
    rw [World.origin, hpath, World.origin]
  refine ⟨h.chain, by simp, fun _ => by rw [hpath]; exact h.opened (by simp [hk]), ?_, fun k' hk' => ?_,
    fun k' held m hk' hp => ?_⟩
  · rw [horigin, hpath]
    have hflows := h.flows
    rw [World.reach, hk] at hflows
    exact hflows
  · obtain rfl := Option.some.inj hk'
    exact h.reads k hk
  · obtain rfl := Option.some.inj hk'
    rw [horigin]
    obtain ⟨hearlier, hstable, hall⟩ := h.polled k held m hk hp
    exact ⟨hearlier, hstable, hall⟩

theorem table_eq (h : Delivers sha256 t n w) : w.audit.table = w.audit.committed := h.chain.table_eq

/-- The audit statement of a poll. -/
theorem Delivers.poll_audit (h : Delivers sha256 t n w) {k : Connection} (hk : w.conn = some k)
    (hs : k.stage = .audit) :
    Delivers sha256 t n { w with conn := some (w.poll t n k) } := by
  have hsorted := committed_sorted h.chain
  obtain ⟨got, hgot⟩ : ∃ got, got = (w.audit.committed.filter fun r => r.entry.tenantId = some t ∧
      k.cursor.audit < r.seq).take n :=
    ⟨_, rfl⟩
  have hpoll : w.poll t n k = { k with stage := .llm got, polled := some (w.audit.committed, got.length) } := by
    simp only [World.poll, hs, World.auditRows, table_eq h, hgot]
  have hread := flows_rows (t := t) hsorted k.cursor.llm k.cursor.tool n k.cursor.audit
  rw [← hgot] at hread
  have hpath : World.path { w with conn := some (w.poll t n k) } = w.path := by
    simp [World.path, hk, hpoll]
  have horigin : World.origin { w with conn := some (w.poll t n k) } = w.origin := by
    rw [World.origin, hpath, World.origin]
  have hflows := h.flows
  rw [World.reach, hk] at hflows
  refine ⟨h.chain, h.lastId, fun _ => by rw [hpath]; exact h.opened (by simp [hk]), ?_, fun k' hk' => ?_,
    fun k' held m hk' hp => ?_⟩
  · rw [horigin, hpath, World.reach]
    simp only [hpoll]
    exact hflows
  · obtain rfl := Option.some.inj hk'
    rw [hpoll]
    exact hread
  · obtain rfl := Option.some.inj hk'
    rw [horigin, hpoll]
    rw [hpoll] at hp
    obtain ⟨rfl, rfl⟩ := Prod.mk.inj (Option.some.inj hp)
    refine ⟨⟨[], (List.append_nil _).symm⟩, ?_, fun hm r hr ht => ?_⟩
    · rcases hread.stable with hst | hst
      · change Stable w.audit.committed w.origin.audit ((got.getLast?.map AuditLog.Row.seq).getD k.cursor.audit)
        rw [hst]
        exact hflows.stable
      · exact .inr hst
    · change r.seq ≤ (got.getLast?.map AuditLog.Row.seq).getD k.cursor.audit
      rcases Nat.lt_or_ge k.cursor.audit r.seq with hlt | hle
      · have hall : got = w.audit.committed.filter fun r => r.entry.tenantId = some t ∧ k.cursor.audit < r.seq := by
          rw [hgot] at hm ⊢
          refine List.take_of_length_le ?_
          rw [List.length_take] at hm
          omega
        have hmem : r ∈ auditOf (auditFrames k.cursor got) := by
          rw [auditOf, auditFrames, List.filterMap_map, List.mem_filterMap]
          exact ⟨r, by rw [hall]; exact List.mem_filter.mpr ⟨hr, by simp [ht, hlt]⟩, rfl⟩
        rw [auditFrames, (hread.rows_eq hsorted).2, between, List.mem_filter] at hmem
        exact (of_decide_eq_true hmem.2).2.2
      · exact hle.trans (hread.rows_eq hsorted).1

theorem Delivers.poll_llm (h : Delivers sha256 t n w) {k : Connection} (hk : w.conn = some k) {rs : List AuditLog.Row}
    (hs : k.stage = .llm rs) : Delivers sha256 t n { w with conn := some (w.poll t n k) } := by
  have hpoll : w.poll t n k = { k with stage := .tool rs (w.llm.select t k.cursor.llm n) w.llm.rows } := by
    simp only [World.poll, hs]
  have hpath : World.path { w with conn := some (w.poll t n k) } = w.path := by simp [World.path, hk, hpoll]
  have horigin : World.origin { w with conn := some (w.poll t n k) } = w.origin := by
    rw [World.origin, hpath, World.origin]
  have hto : (w.poll t n k).polledTo = k.polledTo := by rw [hpoll, Connection.polledTo, Connection.polledTo, hs]; rfl
  refine ⟨h.chain, h.lastId, fun _ => by rw [hpath]; exact h.opened (by simp [hk]), ?_, fun k' hk' => ?_,
    fun k' held m hk' hp => ?_⟩
  · have hflows := h.flows
    rw [World.reach, hk] at hflows
    rw [horigin, hpath, World.reach]
    simp only [hpoll]
    exact hflows
  · obtain rfl := Option.some.inj hk'
    have hreads := h.reads k hk
    rw [hto, hpoll]
    rw [hs] at hreads
    exact hreads
  · obtain rfl := Option.some.inj hk'
    obtain ⟨hearlier, hstable, hall⟩ := h.polled k held m hk (by rw [hpoll] at hp; exact hp)
    rw [horigin]
    exact ⟨hearlier, hto ▸ hstable, fun hm r hr ht => hto ▸ hall hm r hr ht⟩

/-- The last statement: the audit frames go out, and the activity frames after them. -/
theorem Delivers.poll_tool (h : Delivers sha256 t n w) {k : Connection} (hk : w.conn = some k) {rs : List AuditLog.Row}
    {llm held : List Call} (hs : k.stage = .tool rs llm held) :
    Delivers sha256 t n { w with conn := some (w.poll t n k) } := by
  obtain ⟨tool, htool⟩ : ∃ tool, tool = w.tool.select t k.cursor.tool n := ⟨_, rfl⟩
  have hpoll : w.poll t n k =
      { k with
        cursor := after k.cursor rs llm tool
        stage := .audit
        wire := k.wire ++ frames k.cursor rs llm tool (held, w.tool.rows) } := by
    simp only [World.poll, hs, htool]
  have hpath : World.path { w with conn := some (w.poll t n k) } = w.path ++ frames k.cursor rs llm tool
      (held, w.tool.rows) := by
    simp [World.path, hk, hpoll]
  have hto : (after k.cursor rs llm tool).audit = k.polledTo := by
    rw [Connection.polledTo, hs]
    rfl
  have hflows := h.flows
  rw [World.reach, hk] at hflows
  have hreads := h.reads k hk
  rw [hs] at hreads
  have hnew : Flows t w.audit.committed k.cursor.audit
      (frames k.cursor rs llm tool (held, w.tool.rows)) k.polledTo := by
    refine hreads.append (flows_still fun f hf => ?_)
    obtain ⟨x, -, rfl⟩ := List.mem_map.mp hf
    exact ⟨rfl, hto⟩
  have hne : w.path ≠ [] := h.opened (by simp [hk])
  have horigin : World.origin { w with conn := some (w.poll t n k) } = w.origin := by
    rw [World.origin, hpath, World.origin, List.head?_append_of_ne_nil _ hne]
  have hto' : (w.poll t n k).polledTo = k.polledTo := by
    rw [hpoll, ← hto]
    rfl
  refine ⟨h.chain, h.lastId, fun _ => by rw [hpath]; simp [hne], ?_, fun k' hk' => ?_, fun k' held' m hk' hp => ?_⟩
  · rw [horigin, hpath, World.reach]
    simp only [hpoll, Option.map_some, Option.getD_some, hto]
    exact hflows.append hnew
  · obtain rfl := Option.some.inj hk'
    rw [hpoll]
    rfl
  · obtain rfl := Option.some.inj hk'
    obtain ⟨hearlier, hstable, hall⟩ := h.polled k held' m hk (by rw [hpoll] at hp; exact hp)
    rw [horigin]
    exact ⟨hearlier, hto' ▸ hstable, fun hm r hr ht => hto' ▸ hall hm r hr ht⟩

theorem delivers_step (hhex : ∀ text, sha256 text ≠ "") {op : Op} (h : Delivers sha256 t n w)
    (hstep : step sha256 t n w op = some w') : Delivers sha256 t n w' := by
  cases op with
  | audit op =>
    obtain ⟨a', ha, rfl⟩ := Option.map_eq_some_iff.mp hstep
    exact h.audit hhex ha
  | insert k tenantId incidentId agent =>
    obtain rfl := Option.some.inj hstep
    cases k <;> exact h.of_eq rfl rfl rfl
  | commit k id =>
    obtain ⟨c, -, rfl⟩ := Option.map_eq_some_iff.mp hstep
    cases k <;> exact h.of_eq rfl rfl rfl
  | rollback k id =>
    obtain rfl := Option.some.inj hstep
    cases k <;> exact h.of_eq rfl rfl rfl
  | connect lastEventId =>
    simp only [step] at hstep
    split_ifs at hstep with hconn
    obtain rfl := Option.some.inj hstep
    exact h.connect (by simpa using hconn) lastEventId
  | poll =>
    obtain ⟨k, hk, rfl⟩ := Option.map_eq_some_iff.mp hstep
    rcases hs : k.stage with _ | rs | ⟨rs, llm, held⟩
    · exact h.poll_audit hk hs
    · exact h.poll_llm hk hs
    · exact h.poll_tool hk hs
  | deliver =>
    obtain ⟨k, hk, hd⟩ := Option.bind_eq_some_iff.mp hstep
    exact h.deliver hk hd
  | cut =>
    obtain ⟨k, -, rfl⟩ := Option.map_eq_some_iff.mp hstep
    exact h.cut

theorem delivers_init : Delivers sha256 t n init :=
  ⟨AuditLog.inv_init, rfl, fun h => absurd rfl h, rfl, fun _ hk => (by cases hk), fun _ _ _ hk => (by cases hk)⟩

theorem delivers_run (hhex : ∀ text, sha256 text ≠ "") {ops : List Op}
    (h : Runs.run (step sha256 t n) init ops = some w) : Delivers sha256 t n w :=
  Runs.invariant (fun _ _ _ hs hstep => delivers_step hhex hs hstep) h delivers_init

theorem Delivers.delivered_eq (h : Delivers sha256 t n w) :
    auditOf w.client.delivered = between t w.audit.committed w.client.start.audit w.client.cursor.audit := by
  have hflows := h.flows
  rw [World.origin, World.path] at hflows
  rcases hd : w.client.delivered with _ | ⟨f, fs⟩
  · rw [Client.start, Client.cursor, hd]
    exact between_self.symm
  · rw [hd] at hflows
    have harrived := (hflows.arrived.rows_eq (committed_sorted h.chain)).2
    obtain ⟨g, hg⟩ : ∃ g, (f :: fs).getLast? = some g := ⟨_, List.getLast?_eq_some_getLast (List.cons_ne_nil _ _)⟩
    rw [harrived, Client.start, Client.cursor, hd, hg]
    rfl

/-- The rows that a poll read and that have all arrived. -/
theorem Delivers.upToDate (h : Delivers sha256 t n w) {k : Connection} {held : List AuditLog.Row} {m : ℕ}
    (hk : w.conn = some k) (hs : k.stage = .audit) (hwire : k.wire = []) (hp : k.polled = some (held, m)) (hm : m < n) :
    auditOf w.client.delivered = held.filter fun r => r.entry.tenantId = some t ∧ w.client.start.audit < r.seq := by
  obtain ⟨⟨later, hlater⟩, hstable, hall⟩ := h.polled k held m hk hp
  have hpath : w.path = w.client.delivered := by simp [World.path, hk, hwire]
  have horigin : w.origin = w.client.start := by rw [World.origin, hpath, Client.start]
  have hto : k.polledTo = k.cursor.audit := by
    rw [Connection.polledTo, hs]
    rfl
  have hflows := h.flows
  have hsorted := committed_sorted h.chain
  rw [hpath, horigin, World.reach, hk] at hflows
  rw [horigin, hto] at hstable
  rw [(hflows.rows_eq hsorted).2, hlater]
  rw [hlater] at hsorted
  refine (between_grow hstable (List.pairwise_append.mp hsorted).2.2).trans ?_
  refine List.filter_congr fun r hr => ?_
  rw [Bool.eq_iff_iff]
  simp only [decide_eq_true_eq]
  exact ⟨fun hx => ⟨hx.1, hx.2.1⟩, fun hx => ⟨hx.1, hx.2, hto ▸ hall hm r hr hx.1⟩⟩

/-- In every run the audit events that reached the client are the tenant's committed rows from its
start cursor to the last event that arrived, once each and in `seq` order. Once what a poll sent
has arrived, they are all the rows that were committed when the poll read, unless there were more
of them than one poll may send. -/
theorem audit_exactly_once (hhex : ∀ text, sha256 text ≠ "") {ops : List Op}
    (h : Runs.run (step sha256 t n) init ops = some w) :
    auditOf w.client.delivered =
        w.audit.table.filter (fun r => r.entry.tenantId = some t ∧ w.client.start.audit < r.seq ∧
          r.seq ≤ w.client.cursor.audit) ∧
      w.audit.table.Pairwise (fun x y => x.seq < y.seq) ∧
      ∀ k held m, w.conn = some k → k.stage = .audit → k.wire = [] → k.polled = some (held, m) → m < n →
        auditOf w.client.delivered = held.filter fun r => r.entry.tenantId = some t ∧ w.client.start.audit < r.seq := by
  have hd := delivers_run hhex h
  rw [table_eq hd]
  exact ⟨hd.delivered_eq, committed_sorted hd.chain, fun k held m hk hs hwire hp hm => hd.upToDate hk hs hwire hp hm⟩

/-! A row that the first connection polls too early for. -/

def sampleArgs : AuditLog.Args := { AuditLog.sampleArgs "s0" with tenantId := some "acme" }

/-- The text of the sample, with its digest. -/
def sampleSha : String → String :=
  Digest.ofKnown [((AuditLog.canonical AuditLog.GENESIS (sampleArgs.entry AuditLog.sampleTime)).dumps,
    "029cd1ade49ab96d50465d58495f17221596a072380ab73b3267aa80e9323b53")]

theorem sampleSha_ne_empty : ∀ text, sampleSha text ≠ "" := Digest.ofKnown_ne (by decide) (by decide)

def sampleOps : List Op :=
  [.connect none, .deliver] ++ (AuditLog.appendOps 0 sampleArgs).map .audit ++
  [.poll, .poll, .audit (.commit 0), .poll, .cut,
    .connect none, .poll, .deliver, .poll, .poll, .deliver]

theorem sampleOps_run :
    (Runs.run (step sampleSha "acme" 500) init sampleOps).map
    (fun w => (auditOf w.client.delivered).map AuditLog.Row.seq) =
      some [1] := by
  decide +kernel

theorem audit_exactly_once_resumed :
    ∃ w, Runs.run (step sampleSha "acme" 500) init sampleOps = some w ∧
      (auditOf w.client.delivered).map AuditLog.Row.seq = [1] ∧
      auditOf w.client.delivered = w.audit.table.filter fun r =>
        r.entry.tenantId = some "acme" ∧ w.client.start.audit < r.seq ∧ r.seq ≤ w.client.cursor.audit := by
  obtain ⟨w, hw, hseqs⟩ := Option.map_eq_some_iff.mp sampleOps_run
  exact ⟨w, hw, hseqs, (audit_exactly_once sampleSha_ne_empty hw).1⟩

end Blackboard.Stream
