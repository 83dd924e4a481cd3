import Mathlib.Data.List.Basic
import Mathlib.Data.List.Chain
import Mathlib.Data.List.Forall2
import Mathlib.Tactic.ByContra

/-! Hash chains: rows that carry the hash of the row before them and their own hash, which a
digest computes from that one and the row. `scan` recomputes a chain. Where the digest tells
contents apart, rows that keep their hashes and still scan are the first rows of the chain. -/

structure HashChain (R H : Type) where
  prev : R → H
  hash : R → H
  digest : H → R → H
  genesis : H

namespace HashChain

variable {R H : Type} (c : HashChain R H)

/-- The hash a row appended to `rows` has to name. -/
def head (p : H) (rows : List R) : H := (rows.getLast?.map c.hash).getD p

/-- `rows` go on from a row whose hash is `p`. -/
def LinkedFrom : H → List R → Prop
  | _, [] => True
  | p, r :: rs => c.prev r = p ∧ c.hash r = c.digest p r ∧ LinkedFrom (c.hash r) rs

def Linked (rows : List R) : Prop := c.LinkedFrom c.genesis rows

/-- What is wrong with a row, with the number of rows before it. -/
inductive Bad (R : Type)
  | prev (checked : ℕ) (row : R)
  | content (checked : ℕ) (row : R)

def scan [DecidableEq H] : H → ℕ → List R → Except (Bad R) ℕ
  | _, checked, [] => .ok checked
  | p, checked, r :: rs =>
    if c.prev r ≠ p then .error (.prev checked r)
    else if c.hash r ≠ c.digest p r then .error (.content checked r)
    else scan (c.hash r) (checked + 1) rs

variable {c} {p q : H} {rows as bs : List R} {r : R}

@[simp] theorem head_nil : c.head p [] = p := rfl

@[simp] theorem head_snoc : c.head p (rows ++ [r]) = c.hash r := by simp [head]

theorem head_cons : c.head p (r :: rows) = c.head (c.hash r) rows := by
  rcases rows.eq_nil_or_concat with rfl | ⟨rs, a, rfl⟩
  · rfl
  · rw [List.concat_eq_append, head_snoc, ← List.cons_append, head_snoc]

theorem linkedFrom_append :
    c.LinkedFrom p (as ++ bs) ↔ c.LinkedFrom p as ∧ c.LinkedFrom (c.head p as) bs := by
  induction as generalizing p with
  | nil => simp [LinkedFrom]
  | cons a as ih =>
    rw [List.cons_append, LinkedFrom, LinkedFrom, ih, head_cons]
    tauto

theorem linkedFrom_snoc :
    c.LinkedFrom p (rows ++ [r]) ↔
      c.LinkedFrom p rows ∧ c.prev r = c.head p rows ∧ c.hash r = c.digest (c.head p rows) r := by
  rw [linkedFrom_append]
  simp [LinkedFrom]

theorem LinkedFrom.isChain (h : c.LinkedFrom p rows) : rows.IsChain fun a b => c.prev b = c.hash a := by
  induction rows generalizing p with
  | nil => exact .nil
  | cons a rows ih =>
    obtain ⟨-, -, h⟩ := h
    cases rows with
    | nil => exact .singleton a
    | cons b rows => exact .cons_cons h.1 (ih h)

/-- A scan succeeds on linked rows only, and then it has counted them all. -/
theorem scan_eq_ok [DecidableEq H] {k n : ℕ} :
    c.scan p k rows = .ok n ↔ c.LinkedFrom p rows ∧ n = k + rows.length := by
  induction rows generalizing p k with
  | nil => simp [scan, LinkedFrom, eq_comm]
  | cons r rows ih =>
    rw [scan, LinkedFrom]
    by_cases hp : c.prev r = p
    · by_cases hh : c.hash r = c.digest p r
      · rw [if_neg (by simpa using hp), if_neg (by simpa using hh), ih, List.length_cons]
        constructor
        · rintro ⟨h, rfl⟩
          exact ⟨⟨hp, hh, h⟩, by omega⟩
        · rintro ⟨⟨-, -, h⟩, rfl⟩
          exact ⟨h, by omega⟩
      · rw [if_neg (by simpa using hp), if_pos hh]
        simp [hh]
    · rw [if_pos hp]
      simp [hp]

theorem LinkedFrom.take (h : c.LinkedFrom p rows) (n : ℕ) : c.LinkedFrom p (rows.take n) := by
  rw [← List.take_append_drop n rows] at h
  exact (linkedFrom_append.mp h).1

/-- The row at a position of a chain is linked to the rows in front of it. -/
theorem LinkedFrom.row {n : ℕ} (h : c.LinkedFrom p rows) (hr : rows[n]? = some r) :
    c.prev r = c.head p (rows.take n) ∧ c.hash r = c.digest (c.head p (rows.take n)) r := by
  have := h.take (n + 1)
  rw [List.take_add_one, hr] at this
  exact (linkedFrom_snoc.mp this).2

theorem head_take_succ {n : ℕ} (hr : rows[n]? = some r) : c.head p (rows.take (n + 1)) = c.hash r := by
  rw [List.take_add_one, hr]
  exact head_snoc

/-! Digests without collisions: a digest says what it was computed from, and none is the
genesis hash. -/

variable {C : Type*}

structure CollisionFree (c : HashChain R H) (content : R → C) : Prop where
  inj : ∀ p q a b, c.digest p a = c.digest q b → p = q ∧ content a = content b
  genesis : ∀ p a, c.digest p a ≠ c.genesis

variable {content : R → C}

/-- No two positions of a chain are to be followed by the same hash. -/
theorem Linked.head_inj (hc : c.CollisionFree content) (h : c.Linked rows) {m n : ℕ} (hm : m ≤ rows.length)
    (hn : n ≤ rows.length) (he : c.head c.genesis (rows.take m) = c.head c.genesis (rows.take n)) : m = n := by
  induction m generalizing n with
  | zero =>
    cases n with
    | zero => rfl
    | succ n =>
      have hr := List.getElem?_eq_getElem (l := rows) (i := n) (by omega)
      rw [head_take_succ hr, (h.row hr).2] at he
      exact absurd he.symm (hc.genesis _ _)
  | succ m ih =>
    have hr := List.getElem?_eq_getElem (l := rows) (i := m) (by omega)
    rw [head_take_succ hr, (h.row hr).2] at he
    cases n with
    | zero => exact absurd he (hc.genesis _ _)
    | succ n =>
      have hs := List.getElem?_eq_getElem (l := rows) (i := n) (by omega)
      rw [head_take_succ hs, (h.row hs).2] at he
      rw [ih (by omega) (by omega) (hc.inj _ _ _ _ he).1]

/-- Rows whose hashes are hashes of a chain, and which are a chain themselves, are the first
rows of it. -/
theorem Linked.isPrefix (hc : c.CollisionFree content) (h : c.Linked rows) (h' : c.Linked as)
    (hh : ∀ a ∈ as, ∃ r ∈ rows, c.hash a = c.hash r) :
    as.map (fun a => (c.prev a, c.hash a, content a)) <+:
      rows.map fun r => (c.prev r, c.hash r, content r) := by
  induction as using List.reverseRecOn with
  | nil => exact List.nil_prefix
  | append_singleton as a ih =>
    obtain ⟨has, hprev, hhash⟩ := linkedFrom_snoc.mp h'
    have hpre := ih has fun b hb => hh b (by simp [hb])
    obtain ⟨r, hr, har⟩ := hh a (by simp)
    obtain ⟨n, hn⟩ := List.mem_iff_getElem?.mp hr
    have hlen : as.length ≤ rows.length := by simpa using hpre.length_le
    -- the rows in front are the first ones, so they ask for the same hash
    have hhead : c.head c.genesis as = c.head c.genesis (rows.take as.length) := by
      have := congrArg (fun l => (l.getLast?.map fun x : H × H × C => x.2.1).getD c.genesis)
        (List.prefix_iff_eq_take.mp hpre)
      simpa [head, ← List.map_take, Function.comp_def] using this
    obtain ⟨hrp, hrh⟩ := h.row hn
    obtain ⟨hpq, hcon⟩ := hc.inj _ _ _ _ ((hhash.symm.trans har).trans hrh)
    have hnl : n < rows.length := (List.getElem?_eq_some_iff.mp hn).1
    obtain rfl : as.length = n := h.head_inj hc hlen hnl.le (hhead.symm.trans hpq)
    rw [List.prefix_iff_eq_take] at hpre ⊢
    rw [List.map_append, List.length_append, List.length_map, List.map_singleton, List.length_singleton,
      List.take_add_one, List.getElem?_map, hn]
    rw [List.length_map] at hpre
    rw [← hpre, Option.map_some, Option.toList_some, hprev, hrp, har, hcon, hhead]

/-- The digest reads nothing of a row but its content, and so does being linked. -/
theorem linkedFrom_congr (hd : ∀ p a b, content a = content b → c.digest p a = c.digest p b)
    (h : as.map (fun a => (c.prev a, c.hash a, content a)) = bs.map fun b => (c.prev b, c.hash b, content b)) :
    c.LinkedFrom p as ↔ c.LinkedFrom p bs := by
  induction as generalizing bs p with
  | nil =>
    cases bs with
    | nil => rfl
    | cons b bs => cases h
  | cons a as ih =>
    cases bs with
    | nil => cases h
    | cons b bs =>
      simp only [List.map_cons, List.cons.injEq, Prod.mk.injEq] at h
      obtain ⟨⟨hp, hh, hcon⟩, h⟩ := h
      rw [LinkedFrom, LinkedFrom, hp, hh, hd p a b hcon, ih h]

/-- Rows read back with the hashes of a chain are linked exactly if no digest has changed. -/
theorem LinkedFrom.readBack (h : c.LinkedFrom p rows)
    (hrows : List.Forall₂ (fun r a => c.prev a = c.prev r ∧ c.hash a = c.hash r) rows as) :
    c.LinkedFrom p as ↔ List.Forall₂ (fun r a => c.digest (c.prev r) a = c.digest (c.prev r) r) rows as := by
  induction hrows generalizing p with
  | nil => simp [LinkedFrom]
  | @cons r a rows as hra _ ih =>
    obtain ⟨hp, hh, h⟩ := h
    rw [LinkedFrom, List.forall₂_cons, hra.1, hra.2, ih h, hp, hh]
    exact ⟨fun h => ⟨h.2.1.symm, h.2.2⟩, fun h => ⟨rfl, h.1.symm, h.2⟩⟩

/-- Of rows that keep hashes of a chain, exactly the first rows of it are linked. -/
theorem Linked.iff_isPrefix (hc : c.CollisionFree content)
    (hd : ∀ p a b, content a = content b → c.digest p a = c.digest p b) (h : c.Linked rows)
    (hh : ∀ a ∈ as, ∃ r ∈ rows, c.hash a = c.hash r) :
    c.Linked as ↔
      as.map (fun a => (c.prev a, c.hash a, content a)) <+:
        rows.map fun r => (c.prev r, c.hash r, content r) := by
  refine ⟨fun h' => h.isPrefix hc h' hh, fun hp => ?_⟩
  rw [List.prefix_iff_eq_take, List.length_map, ← List.map_take] at hp
  exact (linkedFrom_congr hd hp).mpr (h.take as.length)

end HashChain
