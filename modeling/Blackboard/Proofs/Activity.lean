import Blackboard.Proofs.Stream

/-! What the stream says of `llm_calls` and `tool_calls`. The numbers of these rows do not come in
the order of the commits, and the activity events of one poll share their id; apart from that a
client's cursor passes no row that was not announced. -/

namespace Blackboard.Stream

def Cursor.of (c : Cursor) : Kind → ℕ
  | .llm => c.llm
  | .tool => c.tool

def Event.isActivity : Event → Bool
  | .activity _ _ => true
  | _ => false

/-- What the poll of an event had in front of it. -/
def Frame.held (f : Frame) : Kind → List Call
  | .llm => f.read.1
  | .tool => f.read.2

/-- The event is about the row's incident, names its agent, and was read after its commit. -/
def Frame.announces (f : Frame) (k : Kind) (r : Call) : Bool :=
  match f.event with
  | .activity i agents =>
    r.incidentId = some i && r.agent.all (fun a => a = "" || agents.contains a) && (f.held k).contains r
  | _ => false

namespace World

def opened (w : World) : Kind → List Call
  | .llm => w.client.opened.1
  | .tool => w.client.opened.2

/-- A row that the client's cursor has passed: one of an incident of the tenant, committed after
the stream was opened or beyond its start, and without an event that announced it. -/
def Missed (t : String) (w : World) (k : Kind) (r : Call) : Prop :=
  r ∈ (w.calls k).rows ∧ r.tenantId = t ∧ r.incidentId ≠ none ∧ r.id ≤ w.client.cursor.of k ∧
    ¬ (r ∈ w.opened k ∧ r.id ≤ w.client.start.of k) ∧ ∀ f ∈ w.client.delivered, f.announces k r = false

instance (t : String) (w : World) (k : Kind) (r : Call) : Decidable (w.Missed t k r) :=
  inferInstanceAs (Decidable (_ ∧ _ ∧ _ ∧ _ ∧ _ ∧ _))

/-- The position that the last poll, or the one under way, has passed. -/
def passed (w : World) (k : Kind) : ℕ :=
  match w.conn with
  | none => w.client.cursor.of k
  | some c =>
    match c.stage, k with
    | .tool _ llm _, .llm => (llm.getLast?.map Call.id).getD c.cursor.llm
    | _, k => c.cursor.of k

end World

/-- An activity event right behind another of the same poll. -/
def Twin (p : Cursor) (f : Frame) : Prop := f.event.isActivity = true ∧ f.id = p

instance (p : Cursor) (f : Frame) : Decidable (Twin p f) := instDecidableAnd

/-- The next event to arrive is an activity event of the poll whose last event arrived. -/
def World.Between (w : World) : Prop := ∃ c ∈ w.conn, ∃ f ∈ c.wire.head?, Twin w.client.cursor f

/-- No row is committed under a number that was passed, and no connection is cut between two
activity events of a poll. -/
def Orderly (t : String) (w : World) : Op → Prop
  | .commit k id => ∀ r ∈ (w.calls k).opened, r.id = id → r.tenantId = t → r.incidentId ≠ none → w.passed k < id
  | .cut => ¬ w.Between
  | _ => True

/-- No poll's activity event arrives with another one behind it. -/
def Single (w : World) : Op → Prop
  | .deliver => ∀ c ∈ w.conn, ∀ f ∈ c.wire.head?, ∀ g ∈ c.wire.tail.head?, ¬ Twin f.id g
  | _ => True

instance (w : World) : Decidable w.Between :=
  inferInstanceAs (Decidable (∃ c ∈ w.conn, ∃ f ∈ c.wire.head?, Twin w.client.cursor f))

instance (t : String) (w : World) : (op : Op) → Decidable (Orderly t w op)
  | .commit k id => inferInstanceAs (Decidable (∀ r ∈ (w.calls k).opened,
      r.id = id → r.tenantId = t → r.incidentId ≠ none → w.passed k < id))
  | .cut => inferInstanceAs (Decidable (¬ w.Between))
  | .audit _ | .insert _ _ _ _ | .rollback _ _ | .connect _ | .poll | .deliver => isTrue trivial

instance (w : World) : (op : Op) → Decidable (Single w op)
  | .deliver => inferInstanceAs (Decidable (∀ c ∈ w.conn, ∀ f ∈ c.wire.head?, ∀ g ∈ c.wire.tail.head?, ¬ Twin f.id g))
  | .audit _ | .insert _ _ _ _ | .commit _ _ | .rollback _ _ | .connect _ | .poll | .cut => isTrue trivial

/-! The calls. -/

structure Calls.Sound (c : Calls) : Prop where
  pos : 0 < c.nextId
  distinct : ((c.rows ++ c.opened).map Call.id).Nodup
  bounds : ∀ r ∈ c.rows ++ c.opened, 0 < r.id ∧ r.id < c.nextId

theorem Calls.Sound.insert {c : Calls} (h : c.Sound) (tenantId : String) (incidentId agent : Option String) :
    (c.insert tenantId incidentId agent).Sound := by
  refine ⟨Nat.succ_pos _, ?_, ?_⟩
  · rw [Calls.insert, ← List.append_assoc, List.map_append, List.nodup_append]
    refine ⟨h.distinct, List.nodup_singleton _, fun a ha b hb => ?_⟩
    obtain ⟨r, hr, rfl⟩ := List.mem_map.mp ha
    rw [List.mem_singleton.mp hb]
    exact (h.bounds r hr).2.ne
  · intro r hr
    rw [Calls.insert, ← List.append_assoc] at hr
    rcases List.mem_append.mp hr with hr | hr
    · exact ⟨(h.bounds r hr).1, Nat.lt_succ_of_lt (h.bounds r hr).2⟩
    · rw [List.mem_singleton.mp hr]
      exact ⟨h.pos, Nat.lt_succ_self _⟩

theorem Calls.Sound.commit {c d : Calls} {id : ℕ} (h : c.Sound) (hc : c.commit id = some d) :
    d.Sound ∧ ∃ r ∈ c.opened, r.id = id ∧ d.rows = c.rows ++ [r] := by
  obtain ⟨r, hr, rfl⟩ := Option.map_eq_some_iff.mp hc
  have hmem : r ∈ c.opened := List.mem_of_find?_eq_some hr
  have hid : r.id = id := by simpa using List.find?_some hr
  have hperm : (c.rows ++ [r] ++ c.opened.erase r).Perm (c.rows ++ c.opened) := by
    rw [List.append_assoc]
    exact (List.perm_cons_erase hmem).symm.append_left _
  exact ⟨⟨h.pos, (hperm.map _).nodup_iff.mpr h.distinct, fun x hx => h.bounds x (hperm.mem_iff.mp hx)⟩, r,
    hmem, hid, rfl⟩

theorem Calls.Sound.rollback {c : Calls} (h : c.Sound) (id : ℕ) : (c.rollback id).Sound := by
  have hsub : (c.rows ++ c.opened.filter (·.id ≠ id)).Sublist (c.rows ++ c.opened) := List.filter_sublist.append_left _
  exact ⟨h.pos, (hsub.map _).nodup h.distinct, fun r hr => h.bounds r (hsub.mem hr)⟩

/-- A statement of a poll gets every row up to the last one that it gets. -/
theorem Calls.Sound.select {c : Calls} (h : c.Sound) (t : String) (since n : ℕ) :
    (∀ r ∈ c.select t since n, since < r.id) ∧ since ≤ ((c.select t since n).getLast?.map Call.id).getD since ∧
      ∀ r ∈ c.rows, r.tenantId = t → r.id ≤ ((c.select t since n).getLast?.map Call.id).getD since →
        r.id ≤ since ∨ r ∈ c.select t since n := by
  obtain ⟨all, hall⟩ : ∃ all, all = (c.rows.filter fun r => r.tenantId = t ∧ since < r.id).insertionSort fun a b =>
      a.id ≤ b.id :=
    ⟨_, rfl⟩
  have hselect : c.select t since n = all.take n := by rw [Calls.select, hall]
  have hmem : ∀ r, r ∈ all ↔ r ∈ c.rows ∧ r.tenantId = t ∧ since < r.id := by
    intro r
    rw [hall, List.mem_insertionSort, List.mem_filter, decide_eq_true_eq]
  have hsorted : all.Pairwise fun a b => a.id < b.id := by
    have hle : all.Pairwise fun a b => a.id ≤ b.id := hall ▸ List.pairwise_insertionSort _ _
    have hne : all.Pairwise fun a b => a.id ≠ b.id := by
      have hnodup : (c.rows.map Call.id).Nodup := (List.nodup_append.mp (List.map_append ▸ h.distinct)).1
      have hperm : all.Perm (c.rows.filter fun r => r.tenantId = t ∧ since < r.id) := hall ▸ List.perm_insertionSort _ _
      have hids : (all.map Call.id).Nodup := (hperm.map _).nodup_iff.mpr ((List.filter_sublist.map _).nodup hnodup)
      exact List.pairwise_map.mp hids
    exact (hle.and hne).imp fun hx => lt_of_le_of_ne hx.1 hx.2
  have hafter : ∀ r ∈ c.select t since n, since < r.id := fun r hr =>
    ((hmem r).mp (List.mem_of_mem_take (hselect ▸ hr))).2.2
  have hsplit : all.take n ++ all.drop n = all := List.take_append_drop n all
  refine ⟨hafter, ?_, fun r hr ht hle => ?_⟩
  · rcases hl : (c.select t since n).getLast? with _ | x
    · exact le_rfl
    · exact (hafter x (List.mem_of_getLast? hl)).le
  · rcases Nat.lt_or_ge since r.id with hlt | hge
    · right
      have hr' : r ∈ all.take n ++ all.drop n := hsplit.symm ▸ (hmem r).mpr ⟨hr, ht, hlt⟩
      rcases List.mem_append.mp hr' with hr' | hr'
      · exact hselect ▸ hr'
      · exfalso
        rw [← hsplit] at hsorted
        rcases hl : (c.select t since n).getLast? with _ | x
        · rw [hl] at hle
          exact absurd hle (Nat.not_le.mpr hlt)
        · rw [hl] at hle
          have hx : x ∈ all.take n := hselect ▸ List.mem_of_getLast? hl
          exact absurd hle (Nat.not_le.mpr ((List.pairwise_append.mp hsorted).2.2 x hx r hr'))
    · exact .inl hge

/-- Every call found is in the activity of its incident. -/
theorem mem_activity {found : List Call} {r : Call} {i : String} (hr : r ∈ found) (hi : r.incidentId = some i) :
    ∃ agents, (i, agents) ∈ activity found ∧ ∀ a, r.agent = some a → a ≠ "" → a ∈ agents := by
  refine ⟨_, List.mem_map.mpr ⟨i, Strings.mem_sortedSet.mpr (List.mem_filterMap.mpr ⟨r, hr, hi⟩), rfl⟩,
    fun a ha hne => ?_⟩
  refine Strings.mem_sortedSet.mpr (List.mem_filter.mpr ⟨List.mem_filterMap.mpr ⟨r, ?_, ha⟩, by simpa using hne⟩)
  exact List.mem_filter.mpr ⟨hr, by simpa using hi⟩

/-! What is owed to the client. -/

variable {t : String} {n : ℕ} {D : Kind → Call → Prop} {known known' : Kind → Call → Prop} {p q q' : Cursor}
  {fs gs : List Frame}

/-- The frames owe a reader at `p`, who knows of some of the rows of `D`, all of them up to `q`;
whenever it passes a row it knows it, unless the next frame belongs to the same poll. -/
def Owed (D : Kind → Call → Prop) : (Kind → Call → Prop) → Cursor → List Frame → Cursor → Prop
  | known, p, [], q => (∀ k, p.of k ≤ q.of k) ∧ ∀ k r, D k r → r.id ≤ q.of k → known k r
  | known, p, f :: fs, q =>
    (∀ k, p.of k ≤ f.id.of k) ∧ (¬ Twin p f → ∀ k r, D k r → r.id ≤ p.of k → known k r) ∧
      Owed D (fun k r => known k r ∨ f.announces k r = true) f.id fs q

theorem Owed.le (h : Owed D known p fs q) (k : Kind) : p.of k ≤ q.of k := by
  induction fs generalizing known p with
  | nil => exact h.1 k
  | cons f fs ih => exact (h.1 k).trans (ih h.2.2)

theorem Owed.weaken (h : Owed D known p fs q) (hk : ∀ k r, D k r → known k r → known' k r) : Owed D known' p fs q := by
  induction fs generalizing known known' p with
  | nil => exact ⟨h.1, fun k r hr hle => hk k r hr (h.2 k r hr hle)⟩
  | cons f fs ih =>
    exact ⟨h.1, fun hno k r hr hle => hk k r hr (h.2.1 hno k r hr hle),
      ih h.2.2 fun k r hr hx => hx.imp_left (hk k r hr)⟩

theorem Owed.total (h : Owed D known p fs q) {k : Kind} {r : Call} (hr : D k r) (hle : r.id ≤ q.of k) :
    known k r ∨ ∃ f ∈ fs, f.announces k r = true := by
  induction fs generalizing known p with
  | nil => exact .inl (h.2 k r hr hle)
  | cons f fs ih =>
    rcases ih h.2.2 with (hknown | hf) | ⟨g, hg, hann⟩
    · exact .inl hknown
    · exact .inr ⟨f, List.mem_cons_self, hf⟩
    · exact .inr ⟨g, List.mem_cons_of_mem _ hg, hann⟩

/-- What the reader has passed it knows, except between two activity events of a poll. -/
theorem Owed.passed (h : Owed D known p fs q) (hno : ∀ f ∈ fs.head?, ¬ Twin p f) {k : Kind} {r : Call} (hr : D k r)
    (hle : r.id ≤ p.of k) : known k r := by
  rcases fs with _ | ⟨f, fs⟩
  · exact h.2 k r hr (hle.trans (h.1 k))
  · exact h.2.1 (hno f rfl) k r hr hle

/-- A row under a higher number is not owed yet. -/
theorem Owed.grow {D' : Kind → Call → Prop} (h : Owed D known p fs q) (hD : ∀ k r, D' k r → D k r ∨ q.of k < r.id) :
    Owed D' known p fs q := by
  have hold : ∀ k r, D' k r → r.id ≤ q.of k → D k r := fun k r hr hle => by
    rcases hD k r hr with hr | hlt
    · exact hr
    · exact absurd hle (Nat.not_le.mpr hlt)
  induction fs generalizing known p with
  | nil => exact ⟨h.1, fun k r hr hle => h.2 k r (hold k r hr hle) hle⟩
  | cons f fs ih =>
    have hpq : ∀ k, p.of k ≤ q.of k := Owed.le (show Owed D known p (f :: fs) q from h)
    exact ⟨h.1, fun hno k r hr hle => h.2.1 hno k r (hold k r hr (hle.trans (hpq k))) hle, ih h.2.2⟩

theorem Owed.append (h : Owed D known p fs q)
    (hg : ∀ known p, (∀ k, p.of k ≤ q.of k) → (∀ k r, D k r → r.id ≤ q.of k → known k r) → Owed D known p gs q') :
    Owed D known p (fs ++ gs) q' := by
  induction fs generalizing known p with
  | nil => exact hg known p h.1 h.2
  | cons f fs ih => exact ⟨h.1, h.2.1, ih h.2.2⟩

/-- The activity frames of a poll all have its id. -/
theorem owed_activity (hgs : ∀ f ∈ gs, f.event.isActivity = true ∧ f.id = q) (hp : ∀ k, p.of k ≤ q.of k)
    (hpassed : p = q ∨ ∀ k r, D k r → r.id ≤ p.of k → known k r)
    (hall : ∀ k r, D k r → r.id ≤ q.of k → known k r ∨ ∃ f ∈ gs, f.announces k r = true) : Owed D known p gs q := by
  induction gs generalizing known p with
  | nil =>
    refine ⟨hp, fun k r hr hle => (hall k r hr hle).resolve_right ?_⟩
    rintro ⟨f, hf, -⟩
    cases hf
  | cons f gs ih =>
    obtain ⟨hact, hid⟩ := hgs f List.mem_cons_self
    refine ⟨fun k => hid ▸ hp k, fun hno => ?_, ?_⟩
    · exact hpassed.resolve_left fun hpq => hno ⟨hact, hid.trans hpq.symm⟩
    · refine ih (fun g hg => hgs g (List.mem_cons_of_mem _ hg)) (fun k => by rw [hid]) (.inl hid) fun k r hr hle => ?_
      rcases hall k r hr hle with hknown | ⟨g, hg, hann⟩
      · exact .inl (.inl hknown)
      · rcases List.mem_cons.mp hg with rfl | hg
        · exact .inl (.inr hann)
        · exact .inr ⟨g, hg, hann⟩

/-- Frames that leave the position where it is, before others. -/
theorem owed_still (hfs : ∀ f ∈ fs, ∀ k, f.id.of k = q.of k) (hp : ∀ k, p.of k ≤ q.of k)
    (hknown : ∀ k r, D k r → r.id ≤ q.of k → known k r)
    (hgs : ∀ known p, (∀ k, p.of k ≤ q.of k) → (∀ k r, D k r → r.id ≤ q.of k → known k r) → Owed D known p gs q') :
    Owed D known p (fs ++ gs) q' := by
  induction fs generalizing known p with
  | nil => exact hgs known p hp hknown
  | cons f fs ih =>
    have hid := hfs f List.mem_cons_self
    refine ⟨fun k => (hp k).trans (hid k).ge, fun _ k r hr hle => hknown k r hr (hle.trans (hp k)), ?_⟩
    exact ih (fun g hg => hfs g (List.mem_cons_of_mem _ hg)) (fun k => (hid k).le) fun k r hr hle => .inl
      (hknown k r hr hle)

/-! The world. -/

/-- The rows that the stream has to announce. -/
def Due (t : String) (w : World) (k : Kind) (r : Call) : Prop :=
  r ∈ (w.calls k).rows ∧ r.tenantId = t ∧ r.incidentId ≠ none

/-- The row was there when the stream was opened, or a delivered event announced it. -/
def Known (w : World) (k : Kind) (r : Call) : Prop :=
  (r ∈ w.opened k ∧ r.id ≤ w.origin.of k) ∨ ∃ f ∈ w.client.delivered, f.announces k r = true

/-- The position after a statement that got `found`. -/
def lastOf (since : ℕ) (found : List Call) : ℕ := (found.getLast?.map Call.id).getD since

/-- What a statement got after `since`, and what the table held then: every row up to the last one. -/
structure Found (t : String) (w : World) (k : Kind) (since : ℕ) (got held : List Call) : Prop where
  after : ∀ r ∈ got, since < r.id
  le : since ≤ lastOf since got
  all : ∀ r, Due t w k r → r.id ≤ lastOf since got → r.id ≤ since ∨ r ∈ got ∧ r ∈ held

structure Informs (t : String) (w : World) : Prop where
  lastId : w.client.lastId = w.client.delivered.getLast?.map fun f => f.id.str
  sound : ∀ k, (w.calls k).Sound
  owed : ∀ c, w.conn = some c → Owed (Due t w) (Known w) w.client.cursor c.wire c.cursor
  idle : w.conn = none → ∀ k r, Due t w k r → r.id ≤ w.client.cursor.of k → Known w k r
  found : ∀ c rs llm held, w.conn = some c → c.stage = .tool rs llm held → Found t w .llm c.cursor.llm llm held

variable {w w' : World}

theorem Informs.positive (h : Informs t w) {k : Kind} {r : Call} (hr : Due t w k r) : 0 < r.id :=
  ((h.sound k).bounds r (List.mem_append_left _ hr.1)).1

theorem calls_setCalls (w : World) (k k' : Kind) (d : Calls) :
    (w.setCalls k d).calls k' = if k' = k then d else w.calls k' := by
  cases k <;> cases k' <;> rfl

theorem Informs.le_passed (h : Informs t w) {c : Connection} (hc : w.conn = some c) (k : Kind) :
    c.cursor.of k ≤ w.passed k := by
  simp only [World.passed, hc]
  rcases hs : c.stage with _ | rs | ⟨rs, llm, held⟩
  · exact le_rfl
  · exact le_rfl
  · cases k with
    | llm => exact (h.found c rs llm held hc hs).le
    | tool => exact le_rfl

/-- Writers that add no row under a number that was passed. -/
theorem Informs.write (h : Informs t w) {k : Kind} {d : Calls} (hd : d.Sound)
    (hnew : ∀ r ∈ d.rows, r ∈ (w.calls k).rows ∨ (r.tenantId = t → r.incidentId ≠ none → w.passed k < r.id)) :
    Informs t (w.setCalls k d) := by
  have hclient : (w.setCalls k d).client = w.client := by cases k <;> rfl
  have hconn : (w.setCalls k d).conn = w.conn := by cases k <;> rfl
  have hknown : ∀ k' r, Known (w.setCalls k d) k' r ↔ Known w k' r := by
    intro k' r
    unfold Known World.opened World.origin World.path
    rw [hclient, hconn]
  have hdue : ∀ k' r, Due t (w.setCalls k d) k' r → Due t w k' r ∨ w.passed k' < r.id := by
    rintro k' r ⟨hr, ht, hi⟩
    rw [calls_setCalls] at hr
    by_cases hk : k' = k
    · subst hk
      rw [if_pos rfl] at hr
      exact (hnew r hr).imp (fun hr => ⟨hr, ht, hi⟩) fun hlt => hlt ht hi
    · rw [if_neg hk] at hr
      exact .inl ⟨hr, ht, hi⟩
  refine ⟨by rw [hclient]; exact h.lastId, fun k' => ?_, fun c hc => ?_, fun hc k' r hr hle => ?_,
    fun c rs llm held hc hs => ?_⟩
  · rw [calls_setCalls]
    split_ifs
    · exact hd
    · exact h.sound k'
  · rw [hconn] at hc
    rw [hclient]
    refine ((h.owed c hc).weaken fun k' r _ hx => (hknown k' r).mpr hx).grow fun k' r hr => ?_
    exact (hdue k' r hr).imp_right fun hlt => (h.le_passed hc k').trans_lt hlt
  · rw [hconn] at hc
    rw [hclient] at hle
    rcases hdue k' r hr with hr | hlt
    · exact (hknown k' r).mpr (h.idle hc k' r hr hle)
    · rw [World.passed, hc] at hlt
      exact absurd hle (Nat.not_le.mpr hlt)
  · rw [hconn] at hc
    obtain ⟨hafter, hle, hall⟩ := h.found c rs llm held hc hs
    refine ⟨hafter, hle, fun r hr hlast => ?_⟩
    rcases hdue .llm r hr with hr | hlt
    · exact hall r hr hlast
    · rw [World.passed, hc] at hlt
      simp only [hs] at hlt
      exact absurd hlast (Nat.not_le.mpr hlt)

theorem cursor_nil {c : Client} (h : c.delivered = []) (k : Kind) : c.cursor.of k = 0 := by
  rw [Client.cursor, h]
  cases k <;> rfl

theorem Informs.connect (h : Informs t w) (hconn : w.conn = none) (lastEventId : Option (List Char)) :
    Informs t (w.connect t lastEventId) := by
  generalize hw : w.connect t lastEventId = w'
  obtain ⟨start, hstart⟩ : ∃ start, start = (Cursor.parse (w.client.lastId <|> lastEventId)).getD (w.now t) := ⟨_, rfl⟩
  have hcalls : ∀ k, w'.calls k = w.calls k := fun k => by rw [← hw]; cases k <;> rfl
  have hk : w'.conn = some { cursor := start, wire := [{ event := .ready, id := start }] } := by rw [← hw, hstart]; rfl
  have hd : w'.client.delivered = w.client.delivered := by
    rw [← hw, World.connect]
    split_ifs <;> rfl
  have hl : w'.client.lastId = w.client.lastId := by
    rw [← hw, World.connect]
    split_ifs <;> rfl
  have hcursor : w'.client.cursor = w.client.cursor := by rw [Client.cursor, hd, Client.cursor]
  have hpath : w'.path = w.client.delivered ++ [{ event := .ready, id := start }] := by rw [World.path, hk, hd]; rfl
  have hdue : ∀ k r, Due t w' k r ↔ Due t w k r := fun k r => by rw [Due, hcalls, Due]
  refine ⟨by rw [hl, hd]; exact h.lastId, fun k => by rw [hcalls]; exact h.sound k, fun c hc => ?_, fun hc => ?_,
    fun c rs llm held hc hs => ?_⟩
  · rw [hk] at hc
    obtain rfl := Option.some.inj hc
    rw [hcursor]
    rcases hdel : w.client.delivered with _ | ⟨f, fs⟩
    · -- a new stream: every row up to its start was there
      have hno : w.client.lastId = none := by rw [h.lastId, hdel]; rfl
      have hopened : ∀ k r, Due t w' k r → r ∈ w'.opened k := by
        intro k r hr
        have hr := ((hdue k r).mp hr).1
        have hnow : w'.client.opened = (w.llm.rows, w.tool.rows) := by rw [← hw, World.connect, if_pos hno]
        unfold World.opened
        rw [hnow]
        cases k <;> exact hr
      have horigin : w'.origin = start := by rw [World.origin, hpath, hdel]; rfl
      refine ⟨fun k => by rw [cursor_nil hdel]; exact Nat.zero_le _, fun _ k r hr hle => ?_, fun k => le_rfl,
        fun k r hr hle => .inl (.inl ⟨hopened k r hr, by rw [horigin]; exact hle⟩)⟩
      rw [cursor_nil hdel] at hle
      exact absurd hle (Nat.not_le.mpr (h.positive ((hdue k r).mp hr)))
    · have hne : w.client.delivered ≠ [] := by rw [hdel]; simp
      obtain ⟨g, hg⟩ : ∃ g, w.client.delivered.getLast? = some g := ⟨_, List.getLast?_eq_some_getLast hne⟩
      have hlast : w.client.lastId = some w.client.cursor.str := by rw [h.lastId, Client.cursor, hg]; rfl
      obtain rfl : start = w.client.cursor := by
        rw [hstart, hlast]
        exact congrArg (Option.getD · _) (parse_str _)
      have hopened : w'.opened = w.opened := by
        rw [← hw, World.connect, if_neg (by rw [hlast]; simp)]
        rfl
      have horigin : w'.origin = w.origin := by
        rw [World.origin, hpath, World.origin, World.path, hconn, hdel]
        rfl
      have hknown : ∀ k r, Due t w' k r → r.id ≤ w.client.cursor.of k → Known w' k r := by
        intro k r hr hle
        have := h.idle hconn k r ((hdue k r).mp hr) hle
        rwa [Known, hopened, horigin, hd]
      exact ⟨fun k => le_rfl, fun _ => hknown, fun k => le_rfl, fun k r hr hle => .inl (hknown k r hr hle)⟩
  · rw [hk] at hc
    cases hc
  · rw [hk] at hc
    obtain rfl := Option.some.inj hc
    cases hs

theorem Informs.cut (h : Informs t w) (hno : ¬ w.Between) {c : Connection} (hc : w.conn = some c) :
    Informs t { w with conn := none } := by
  refine ⟨h.lastId, h.sound, fun c hc => (by cases hc), fun _ k r hr hle => ?_, fun c rs llm held hc => (by cases hc)⟩
  rcases hdel : w.client.delivered with _ | ⟨f, fs⟩
  · have hzero : r.id ≤ 0 := (cursor_nil hdel k) ▸ hle
    exact absurd hzero (Nat.not_le.mpr (h.positive hr))
  · have hknown := (h.owed c hc).passed (fun f hf htwin => hno ⟨c, hc, f, hf, htwin⟩) hr hle
    unfold Known World.opened World.origin World.path at hknown ⊢
    rw [hdel] at hknown ⊢
    exact hknown

theorem Informs.deliver (h : Informs t w) {c : Connection} (hc : w.conn = some c) (hstep : w.deliver c = some w') :
    Informs t w' := by
  unfold World.deliver at hstep
  rcases hwire : c.wire with _ | ⟨f, rest⟩
  · rw [hwire] at hstep
    cases hstep
  rw [hwire] at hstep
  obtain rfl := Option.some.inj hstep
  have howed := h.owed c hc
  rw [hwire] at howed
  refine ⟨by simp, h.sound, fun c' hc' => ?_, fun hno => (by cases hno), fun c' rs llm held hc' hs => ?_⟩
  · obtain rfl := Option.some.inj hc'
    have hcursor : Client.cursor { w.client with lastId := some f.id.str,
                                                 delivered := w.client.delivered ++ [f] } = f.id := by
      rw [Client.cursor]
      simp
    rw [hcursor]
    refine howed.2.2.weaken fun k r _ hx => ?_
    rcases hx with (hold | ⟨g, hg, hann⟩) | hann
    · left
      have hpath : w.client.delivered ++ c.wire = (w.client.delivered ++ [f]) ++ rest := by rw [hwire]; simp
      unfold World.opened World.origin World.path at hold ⊢
      rw [hc] at hold
      simp only [Option.map_some, Option.getD_some, hpath] at hold ⊢
      exact hold
    · exact .inr ⟨g, List.mem_append_left _ hg, hann⟩
    · exact .inr ⟨f, by simp, hann⟩
  · obtain rfl := Option.some.inj hc'
    obtain ⟨hafter, hle, hall⟩ := h.found c rs llm held hc hs
    exact ⟨hafter, hle, hall⟩

/-- Statements of a poll that send nothing. -/
theorem Informs.read (h : Informs t w) {c c' : Connection} (hc : w.conn = some c) (hcursor : c'.cursor = c.cursor)
    (hwire : c'.wire = c.wire)
    (hfound : ∀ rs llm held, c'.stage = .tool rs llm held → Found t w .llm c.cursor.llm llm held) :
    Informs t { w with conn := some c' } := by
  have hknown : ∀ k r, Known { w with conn := some c' } k r ↔ Known w k r := by
    intro k r
    unfold Known World.opened World.origin World.path
    simp only [hc, Option.map_some, Option.getD_some, hwire]
  refine ⟨h.lastId, h.sound, fun c'' hc'' => ?_, fun hno => (by cases hno), fun c'' rs llm held hc'' hs => ?_⟩
  · obtain rfl := Option.some.inj hc''
    rw [hcursor, hwire]
    exact (h.owed c hc).weaken fun k r _ hx => (hknown k r).mpr hx
  · obtain rfl := Option.some.inj hc''
    obtain ⟨hafter, hle, hall⟩ := hfound rs llm held hs
    rw [hcursor]
    exact ⟨hafter, hle, hall⟩

theorem Informs.selects (h : Informs t w) (k : Kind) (since n : ℕ) :
    Found t w k since ((w.calls k).select t since n) (w.calls k).rows := by
  obtain ⟨hafter, hle, hall⟩ := (h.sound k).select t since n
  exact ⟨hafter, hle, fun r hr hlast => (hall r hr.1 hr.2.1 hlast).imp_right fun hx => ⟨hx, hr.1⟩⟩

/-- What a poll sends announces every row that its cursor passes. -/
theorem owed_frames {since : Cursor} {llm tool held held' : List Call} (rs : List AuditLog.Row)
    (hllm : Found t w .llm since.llm llm held) (htool : Found t w .tool since.tool tool held')
    (hp : ∀ k, p.of k ≤ since.of k) (hknown : ∀ k r, Due t w k r → r.id ≤ since.of k → known k r) :
    Owed (Due t w) known p (frames since rs llm tool (held, held')) (after since rs llm tool) := by
  have hle : ∀ k, since.of k ≤ (after since rs llm tool).of k := by
    intro k
    cases k with
    | llm => exact hllm.le
    | tool => exact htool.le
  refine owed_still (fun f hf k => ?_) hp hknown fun known p hp hknown => ?_
  · obtain ⟨r, -, rfl⟩ := List.mem_map.mp hf
    cases k <;> rfl
  · refine owed_activity (fun f hf => ?_) (fun k => (hp k).trans (hle k))
      (.inr fun k r hr hle => hknown k r hr (hle.trans (hp k)))
      fun k r hr hrle => ?_
    · obtain ⟨a, -, rfl⟩ := List.mem_map.mp hf
      exact ⟨rfl, rfl⟩
    · have hfound : r.id ≤ since.of k ∨ r ∈ llm ++ tool ∧ r ∈ Frame.held ⟨.ready, {}, (held, held')⟩ k := by
        cases k with
        | llm => exact (hllm.all r hr hrle).imp_right fun hx => ⟨List.mem_append_left _ hx.1, hx.2⟩
        | tool => exact (htool.all r hr hrle).imp_right fun hx => ⟨List.mem_append_right _ hx.1, hx.2⟩
      rcases hfound with hold | ⟨hmem, hheld⟩
      · exact .inl (hknown k r hr hold)
      · obtain ⟨i, hi⟩ := Option.ne_none_iff_exists'.mp hr.2.2
        obtain ⟨agents, hact, hagents⟩ := mem_activity hmem hi
        refine .inr ⟨_, List.mem_map.mpr ⟨_, hact, rfl⟩, ?_⟩
        have hread : r ∈ Frame.held ⟨.activity i agents, after since rs llm tool, (held, held')⟩ k := by
          cases k <;> exact hheld
        simp only [Frame.announces, Bool.and_eq_true, decide_eq_true_eq, List.contains_iff_mem]
        refine ⟨⟨hi, ?_⟩, hread⟩
        rcases ha : r.agent with _ | a
        · rfl
        · by_cases hempty : a = ""
          · simp [hempty]
          · simp [hagents a ha hempty]

theorem Informs.poll (h : Informs t w) {c : Connection} (hc : w.conn = some c) (n : ℕ) :
    Informs t { w with conn := some (w.poll t n c) } := by
  rcases hs : c.stage with _ | rs | ⟨rs, llm, held⟩
  · have hpoll : (w.poll t n c).cursor = c.cursor ∧ (w.poll t n c).wire = c.wire ∧
        (w.poll t n c).stage = .llm ((w.auditRows t c.cursor.audit).take n) := by
      rw [World.poll, hs]
      exact ⟨rfl, rfl, rfl⟩
    obtain ⟨hcursor, hwire, hstage⟩ := hpoll
    exact h.read hc hcursor hwire fun _ _ _ hs' => by rw [hstage] at hs'; cases hs'
  · have hpoll : w.poll t n c = { c with stage := .tool rs (w.llm.select t c.cursor.llm n) w.llm.rows } := by
      rw [World.poll, hs]
    rw [hpoll]
    refine h.read hc rfl rfl fun rs' llm' held' hs' => ?_
    obtain ⟨-, rfl, rfl⟩ := Changes.tool.inj hs'
    exact h.selects .llm c.cursor.llm n
  · have hfound := h.found c rs llm held hc hs
    have hpoll : w.poll t n c =
        { c with
          cursor := after c.cursor rs llm (w.tool.select t c.cursor.tool n)
          stage := .audit
          wire := c.wire ++ frames c.cursor rs llm (w.tool.select t c.cursor.tool n) (held, w.tool.rows) } := by
      rw [World.poll, hs]
    have howed : Owed (Due t w) (Known w) w.client.cursor
        (c.wire ++ frames c.cursor rs llm (w.tool.select t c.cursor.tool n) (held, w.tool.rows))
        (after c.cursor rs llm (w.tool.select t c.cursor.tool n)) :=
      (h.owed c hc).append fun known p hp hknown => owed_frames rs hfound (h.selects .tool c.cursor.tool n) hp hknown
    generalize w.poll t n c = c' at hpoll
    subst hpoll
    refine ⟨h.lastId, h.sound, fun c'' hc'' => ?_, fun hno => (by cases hno), fun c'' _ _ _ hc'' hs' => ?_⟩
    · obtain rfl := Option.some.inj hc''
      refine howed.weaken fun k r hr hx => hx.imp_left fun hold => ⟨hold.1, ?_⟩
      have horigin := hold.2
      unfold World.origin World.path at horigin ⊢
      rw [hc] at horigin
      simp only [Option.map_some, Option.getD_some] at horigin ⊢
      rcases hpath : w.client.delivered ++ c.wire with _ | ⟨f, fs⟩
      · rw [hpath] at horigin
        have hzero : r.id ≤ 0 := by cases k <;> exact horigin
        exact absurd hzero (Nat.not_le.mpr (h.positive hr))
      · rw [← List.append_assoc, hpath]
        rw [hpath] at horigin
        exact horigin
    · obtain rfl := Option.some.inj hc''
      cases hs'

theorem informs_step {sha256 : String → String} {n : ℕ} {op : Op} (h : Informs t w) (hok : Orderly t w op)
    (hstep : step sha256 t n w op = some w') : Informs t w' := by
  cases op with
  | audit op =>
    obtain ⟨a', -, rfl⟩ := Option.map_eq_some_iff.mp hstep
    refine ⟨h.lastId, h.sound, h.owed, h.idle, fun c rs llm held hc hs => ?_⟩
    obtain ⟨hafter, hle, hall⟩ := h.found c rs llm held hc hs
    exact ⟨hafter, hle, hall⟩
  | insert k tenantId incidentId agent =>
    obtain rfl := Option.some.inj hstep
    exact h.write ((h.sound k).insert tenantId incidentId agent) fun r hr => .inl hr
  | commit k id =>
    obtain ⟨d, hd, rfl⟩ := Option.map_eq_some_iff.mp hstep
    obtain ⟨hsound, r, hr, hid, hrows⟩ := (h.sound k).commit hd
    refine h.write hsound fun x hx => ?_
    rw [hrows] at hx
    rcases List.mem_append.mp hx with hx | hx
    · exact .inl hx
    · rw [List.mem_singleton.mp hx]
      exact .inr fun ht hi => hid ▸ hok r hr hid ht hi
  | rollback k id =>
    obtain rfl := Option.some.inj hstep
    exact h.write ((h.sound k).rollback id) fun r hr => .inl hr
  | connect lastEventId =>
    simp only [step] at hstep
    split_ifs at hstep with hconn
    obtain rfl := Option.some.inj hstep
    exact h.connect (by simpa using hconn) lastEventId
  | poll =>
    obtain ⟨c, hc, rfl⟩ := Option.map_eq_some_iff.mp hstep
    exact h.poll hc n
  | deliver =>
    obtain ⟨c, hc, hd⟩ := Option.bind_eq_some_iff.mp hstep
    exact h.deliver hc hd
  | cut =>
    obtain ⟨c, hc, rfl⟩ := Option.map_eq_some_iff.mp hstep
    exact h.cut hok hc

theorem informs_init : Informs t init := by
  refine ⟨rfl, fun k => ?_, fun c hc => (by cases hc), fun _ k r hr => ?_, fun c rs llm held hc => (by cases hc)⟩
  · cases k <;> exact ⟨Nat.one_pos, List.nodup_nil, fun r hr => (by cases hr)⟩
  · cases k <;> cases hr.1

theorem informs_run {sha256 : String → String} {n : ℕ} {ops : List Op}
    (h : Runs.run (step sha256 t n) init ops = some w) (hok : Runs.Admits (step sha256 t n) (Orderly t) init ops) :
    Informs t w :=
  Runs.invariant_under (fun _ _ _ hs hok hstep => informs_step hs hok hstep) h hok informs_init

/-- A row that was passed without an announcement has it on the wire, right behind another
activity event of its poll. -/
theorem Informs.missed (h : Informs t w) {k : Kind} {r : Call} (hm : w.Missed t k r) :
    w.Between ∧ ∃ c, w.conn = some c ∧ ∃ f ∈ c.wire, f.announces k r = true := by
  obtain ⟨hr, ht, hi, hle, hold, hann⟩ := hm
  have hdue : Due t w k r := ⟨hr, ht, hi⟩
  have hne : w.client.delivered ≠ [] := by
    intro hnil
    rw [cursor_nil hnil] at hle
    exact absurd hle (Nat.not_le.mpr (h.positive hdue))
  have hunknown : ¬ Known w k r := by
    rintro (hx | ⟨f, hf, hx⟩)
    · have horigin : w.origin = w.client.start := by
        rw [World.origin, World.path, List.head?_append_of_ne_nil _ hne, Client.start]
      exact hold (horigin ▸ hx)
    · rw [hann f hf] at hx
      cases hx
  rcases hc : w.conn with _ | c
  · exact absurd (h.idle hc k r hdue hle) hunknown
  · have howed := h.owed c hc
    refine ⟨?_, c, rfl, (howed.total hdue (hle.trans (howed.le k))).resolve_left hunknown⟩
    by_contra hno
    exact hunknown (howed.passed (fun f hf htwin => hno ⟨c, hc, f, hf, htwin⟩) hdue hle)

theorem Found.lt {k : Kind} {since : ℕ} {got held : List Call} (h : Found t w k since got held) (hne : got ≠ []) :
    since < lastOf since got := by
  obtain ⟨r, hr⟩ : ∃ r, got.getLast? = some r := ⟨_, List.getLast?_eq_some_getLast hne⟩
  rw [lastOf, hr]
  exact h.after r (List.mem_of_getLast? hr)

/-- A poll's first activity event has an id of its own. -/
theorem not_between_step {sha256 : String → String} {n : ℕ} {op : Op} (h : Informs t w) (hno : ¬ w.Between)
    (hsingle : Single w op) (hstep : step sha256 t n w op = some w') : ¬ w'.Between := by
  cases op with
  | audit op =>
    obtain ⟨a', -, rfl⟩ := Option.map_eq_some_iff.mp hstep
    exact hno
  | insert k tenantId incidentId agent =>
    obtain rfl := Option.some.inj hstep
    cases k <;> exact hno
  | commit k id =>
    obtain ⟨d, -, rfl⟩ := Option.map_eq_some_iff.mp hstep
    cases k <;> exact hno
  | rollback k id =>
    obtain rfl := Option.some.inj hstep
    cases k <;> exact hno
  | connect lastEventId =>
    simp only [step] at hstep
    split_ifs at hstep with hconn
    obtain rfl := Option.some.inj hstep
    rintro ⟨c, hc, f, hf, hact, -⟩
    obtain rfl := Option.some.inj hc
    obtain rfl := Option.some.inj hf
    cases hact
  | cut =>
    obtain ⟨c, hc, rfl⟩ := Option.map_eq_some_iff.mp hstep
    rintro ⟨c, hc, -⟩
    cases hc
  | deliver =>
    obtain ⟨c, hc, hd⟩ := Option.bind_eq_some_iff.mp hstep
    unfold World.deliver at hd
    rcases hwire : c.wire with _ | ⟨f, rest⟩
    · rw [hwire] at hd
      cases hd
    rw [hwire] at hd
    obtain rfl := Option.some.inj hd
    rintro ⟨c', hc', g, hg, htwin⟩
    obtain rfl := Option.some.inj hc'
    rcases rest with _ | ⟨g', rest⟩
    · cases hg
    · obtain rfl := Option.some.inj hg
      refine hsingle c hc f (by rw [hwire]; rfl) g' (by rw [hwire]; rfl) ?_
      simpa [Client.cursor] using htwin
  | poll =>
    obtain ⟨c, hc, rfl⟩ := Option.map_eq_some_iff.mp hstep
    rintro ⟨c', hc', f, hf, htwin⟩
    obtain rfl := Option.some.inj hc'
    rcases hs : c.stage with _ | rs | ⟨rs, llm, held⟩
    · exact hno ⟨c, hc, f, by simpa [World.poll, hs] using hf, htwin⟩
    · exact hno ⟨c, hc, f, by simpa [World.poll, hs] using hf, htwin⟩
    · have hle := (h.owed c hc).le
      rcases hwire : c.wire with _ | ⟨g, rest⟩
      swap
      · exact hno ⟨c, hc, f, by simpa [World.poll, hs, hwire] using hf, htwin⟩
      have hllm := h.found c rs llm held hc hs
      have htool := h.selects .tool c.cursor.tool n
      have hf : f ∈ (frames c.cursor rs llm (w.tool.select t c.cursor.tool n) (held, w.tool.rows)).head? := by
        simpa [World.poll, hs, hwire] using hf
      obtain ⟨hact, hid⟩ := htwin
      rcases rs with _ | ⟨r, rs⟩
      swap
      · obtain rfl := Option.some.inj hf
        cases hact
      obtain ⟨a, ha, rfl⟩ := List.mem_map.mp (List.mem_of_mem_head? hf)
      have hcursor : ∀ k, (after c.cursor [] llm (w.tool.select t c.cursor.tool n)).of k ≤ c.cursor.of k := fun k => by
        rw [show after c.cursor [] llm (w.tool.select t c.cursor.tool n) = w.client.cursor from hid]
        exact hle k
      have hnollm : llm = [] := by
        by_contra hne
        exact absurd (hcursor .llm) (Nat.not_le.mpr (hllm.lt hne))
      have hnotool : w.tool.select t c.cursor.tool n = [] := by
        by_contra hne
        exact absurd (hcursor .tool) (Nat.not_le.mpr (htool.lt hne))
      rw [hnollm, hnotool] at ha
      cases ha

/-- In a run in which no row is committed under a number that was passed and no connection is cut
between two activity events of a poll, the client's cursor passes no row without an announcement,
except that the events of the poll it is receiving may still be on their way. Where each poll's
activity is of one incident, there is no exception. -/
theorem activity_announced {sha256 : String → String} {n : ℕ} {ops : List Op}
    (h : Runs.run (step sha256 t n) init ops = some w) (hok : Runs.Admits (step sha256 t n) (Orderly t) init ops) :
    (∀ k r, w.Missed t k r → w.Between ∧ ∃ c, w.conn = some c ∧ ∃ f ∈ c.wire, f.announces k r = true) ∧
      (Runs.Admits (step sha256 t n) Single init ops → ∀ k r, ¬ w.Missed t k r) := by
  refine ⟨fun k r hm => (informs_run h hok).missed hm, fun hsingle k r hm => ?_⟩
  have hboth : Informs t w ∧ ¬ w.Between := by
    refine Runs.invariant_under (P := fun w => Informs t w ∧ ¬ w.Between) (fun s a s' hs hok hstep => ?_) h
      (hok.and hsingle)
      ⟨informs_init, fun ⟨c, hc, _⟩ => by cases hc⟩
    exact ⟨informs_step hs.1 hok.1 hstep, not_between_step hs.1 hs.2 hok.2 hstep⟩
  exact hboth.2 (hboth.1.missed hm).1

/-- Two model steps of two incidents, one announced after a cut. -/
def sampleCalls : List Op :=
  [.connect none, .deliver, .insert .llm "acme" (some "i1") (some "planner"),
    .insert .llm "acme" (some "i2") (some "logs"), .commit .llm 1, .poll, .poll, .poll, .deliver, .cut, .commit .llm 2,
    .connect none, .deliver, .poll, .poll, .poll, .deliver]

theorem sampleCalls_run :
    (Runs.run (step sampleSha "acme" 500) init sampleCalls).any (fun w => w.client.cursor = ⟨0, 2, 0⟩) = true := by
  decide +kernel

theorem activity_announced_twice :
    ∃ w, Runs.run (step sampleSha "acme" 500) init sampleCalls = some w ∧ w.client.cursor = ⟨0, 2, 0⟩ ∧
      ∀ k r, ¬ w.Missed "acme" k r := by
  obtain ⟨w, hw, hcursor⟩ := (Option.any_eq_true _ _).mp sampleCalls_run
  have hok : Runs.Admits (step sampleSha "acme" 500) (Orderly "acme") init sampleCalls := by decide +kernel
  have hsingle : Runs.Admits (step sampleSha "acme" 500) Single init sampleCalls := by decide +kernel
  exact ⟨w, hw, of_decide_eq_true hcursor, (activity_announced hw hok).2 hsingle⟩

/-- Cut after the first of the two activity events of a poll. -/
def cutBetween : List Op :=
  [.connect none, .deliver, .insert .llm "acme" (some "i1") (some "planner"),
    .insert .llm "acme" (some "i2") (some "logs"), .commit .llm 1, .commit .llm 2, .poll, .poll, .poll, .deliver, .cut]

/-- The first row is committed after a poll that found the second. -/
def lateCommit : List Op :=
  [.connect none, .deliver, .insert .llm "acme" (some "i1") (some "planner"),
    .insert .llm "acme" (some "i2") (some "logs"), .commit .llm 2, .poll, .poll, .poll, .deliver, .commit .llm 1]

theorem activity_lost :
    (∃ w ∈ Runs.run (step sampleSha "acme" 500) init cutBetween,
      w.Missed "acme" .llm ⟨2, "acme", some "i2", some "logs"⟩) ∧
      ∃ w ∈ Runs.run (step sampleSha "acme" 500) init lateCommit,
        w.Missed "acme" .llm ⟨1, "acme", some "i1", some "planner"⟩ := by
  decide +kernel

end Blackboard.Stream
