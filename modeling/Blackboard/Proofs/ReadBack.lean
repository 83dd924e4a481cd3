import Blackboard.Lib.Jsonb
import Blackboard.Proofs.Tampering

/-! What `verify` reads is not always what `append` hashed: the payload has been in a `jsonb`
column. The digest is the same exactly if no float of the payload comes back as an integer or
without its sign. -/

namespace Blackboard.AuditLog

variable {sha256 : String → String} {p : String} {e : Entry} {s : State} {w : Json}

def Entry.withPayload (e : Entry) (w : Json) : Entry := { e with payload := w }

/-- The row as `verify` gets it. -/
def Row.ReadBack (r r' : Row) : Prop :=
  ∃ w, r.entry.payload.ReadBack w ∧ r' = { r with entry := r.entry.withPayload w }

theorem digest_readBack (hsha : CollisionFree sha256) (hd : e.payload.Distinct) (hw : e.payload.ReadBack w) :
    digest sha256 p (e.withPayload w) = digest sha256 p e ↔ e.payload.keepsNumbers = true := by
  rw [digest, digest, hsha.inj.eq_iff, Json.dumps_inj, canonical_alike, ← Json.ReadBack.alike_iff _ w hd hw]
  simp [Entry.content, Entry.withPayload]

theorem forall₂_readBack (hsha : CollisionFree sha256) {rows rows' : List Row}
    (hd : ∀ r ∈ rows, r.entry.payload.Distinct) (h : List.Forall₂ Row.ReadBack rows rows') :
    List.Forall₂ (fun r a => (chain sha256).digest r.prevHash a = (chain sha256).digest r.prevHash r) rows rows' ↔
      ∀ r ∈ rows, r.entry.payload.keepsNumbers = true := by
  induction h with
  | nil => simp
  | @cons r a rows rows' hra _ ih =>
    obtain ⟨w, hw, rfl⟩ := hra
    rw [List.forall₂_cons, ih fun r hr => hd r (by simp [hr]), List.forall_mem_cons]
    exact and_congr_left fun _ => digest_readBack hsha (hd r (by simp)) hw

/-- The digest of a row as read back is the one it was appended with exactly if the numbers of
its payload come back, and the log as read back verifies exactly if that holds of every row. -/
theorem digest_survives_iff (hsha : CollisionFree sha256) :
    (∀ (p : String) (e : Entry) (w : Json), e.payload.Distinct → e.payload.ReadBack w →
      (digest sha256 p (e.withPayload w) = digest sha256 p e ↔ e.payload.keepsNumbers = true)) ∧
    ∀ (ops : List Op) (s : State) (rows : List Row), Runs.run (step sha256) init ops = some s →
      (∀ r ∈ s.table, r.entry.payload.Distinct) → List.Forall₂ Row.ReadBack s.table rows →
      ((verify sha256 rows).ok = true ↔ ∀ r ∈ s.table, r.entry.payload.keepsNumbers = true) := by
  refine ⟨fun p e w => digest_readBack hsha, fun ops s rows h hd hrows => ?_⟩
  have hlinked := (inv_run hsha.nonempty h).linked_table
  rw [verify_ok_iff, ← forall₂_readBack hsha hd hrows]
  refine HashChain.LinkedFrom.readBack hlinked (hrows.imp ?_)
  rintro r _ ⟨w, -, rfl⟩
  exact ⟨rfl, rfl⟩

/-! The verifier's row, after another one: a list of readings, one of them 0.5. `jsonb` puts the shorter names first. -/

/-- 0.5 -/
def half : Double := ⟨false, 2 ^ 52, -53, by decide, by decide, by decide, by decide⟩

theorem storedNumber_half : Json.storedNumber (Numeral.ofDouble half) = some (.float half) := by
  have h : (Numeric.ofNumeral (Numeral.ofDouble half)).numeral = Numeral.ofDouble half := by decide +kernel
  rw [Json.storedNumber, h, Json.ofNumeral_ofDouble]

def reading (at_ : String) (value : Json) (note : String) : Json :=
  .obj [("at", .str at_), ("value", value), ("note", .str note)]

def readings : Json :=
  .obj [("samples", .arr [reading "2026-10-12T05:31:20+00:00" .null "no \"data\"",
      reading "2026-10-12T05:31:35+00:00" (.float half) ""]),
    ("reason", .str "checkout errors is 0.5 per cent ✓")]

def storedReading (at_ : String) (value : Json) (note : String) : Json :=
  .obj [("at", .str at_), ("note", .str note), ("value", value)]

def storedReadings : Json :=
  .obj [("reason", .str "checkout errors is 0.5 per cent ✓"),
    ("samples", .arr [storedReading "2026-10-12T05:31:20+00:00" .null "no \"data\"",
      storedReading "2026-10-12T05:31:35+00:00" (.float half) ""])]

theorem readings_readBack : readings.ReadBack storedReadings := by
  have hreading : ∀ at_ value stored note, Json.ReadBack value stored →
      (reading at_ value note).ReadBack (storedReading at_ stored note) := fun at_ value stored note h =>
    ⟨[("at", .str at_), ("value", stored), ("note", .str note)], ⟨rfl, rfl, rfl, h, rfl, rfl, trivial⟩,
      List.Perm.cons _ (List.Perm.swap _ _ _)⟩
  exact ⟨[("samples", .arr [_, _]), ("reason", .str _)],
    ⟨rfl, ⟨hreading _ _ _ _ rfl, hreading _ _ _ _ storedNumber_half, trivial⟩, rfl, rfl, trivial⟩, List.Perm.swap _ _ _⟩

def verifiedArgs : Args :=
  { actor := "verifier", event := "verification.passed", subject := "s0", payload := some readings }

def verifiedHash : String := "abba86a684cf370526a80c8544380dc31eca4dd69f3cf3aca3a6c60019362940"

def verifiedSha : String → String :=
  Digest.ofKnown (((canonical sampleHash0 (verifiedArgs.entry sampleTime)).dumps, verifiedHash) :: sampleDigests)

theorem verifiedSha_collisionFree : CollisionFree verifiedSha where
  inj := Digest.Proper.injective ⟨by decide, by decide⟩
  genesis := Digest.ofKnown_ne (by decide) (by decide)
  nonempty := Digest.ofKnown_ne (by decide) (by decide)

def verifiedOps : List Op := appendOps 0 (sampleArgs "s0") ++ [.commit 0] ++ appendOps 1 verifiedArgs ++ [.commit 1]

theorem verifiedOps_run :
    (Runs.run (step verifiedSha) init verifiedOps).map (fun s => s.table.map fun r => (r.entry.payload, r.hash)) =
      some [(.obj [], sampleHash0), (readings, verifiedHash)] := by
  decide +kernel

/-- The digest of the readings, and the log with them, as they come back. -/
theorem digest_survives_iff_readings :
    digest verifiedSha sampleHash0 ((verifiedArgs.entry sampleTime).withPayload storedReadings) = verifiedHash ∧
      ∃ s rows, Runs.run (step verifiedSha) init verifiedOps = some s ∧ List.Forall₂ Row.ReadBack s.table rows ∧
        rows.map (·.entry.payload) = [.obj [], storedReadings] ∧ (verify verifiedSha rows).ok = true := by
  have hdistinct : readings.Distinct := by
    simp [readings, reading, Json.Distinct, Json.DistinctAll, Json.DistinctMembers]
  have hkeeps : readings.keepsNumbers = true := by decide +kernel
  have hdigest : digest verifiedSha sampleHash0 (verifiedArgs.entry sampleTime) = verifiedHash :=
    Digest.ofKnown_some List.lookup_cons_self
  refine ⟨?_, ?_⟩
  · rw [← hdigest]
    exact ((digest_survives_iff verifiedSha_collisionFree).1 sampleHash0 (verifiedArgs.entry sampleTime) storedReadings
      hdistinct readings_readBack).mpr hkeeps
  · obtain ⟨s, hs, hrows⟩ := Option.map_eq_some_iff.mp verifiedOps_run
    obtain ⟨r, l, htable, hr, hl⟩ := List.map_eq_cons_iff.mp hrows
    obtain ⟨r', l, rfl, hr', hl⟩ := List.map_eq_cons_iff.mp hl
    obtain rfl := List.map_eq_nil_iff.mp hl
    obtain ⟨hr, -⟩ := Prod.mk.inj hr
    obtain ⟨hr', -⟩ := Prod.mk.inj hr'
    have hback : List.Forall₂ Row.ReadBack s.table [r, { r' with entry := r'.entry.withPayload storedReadings }] := by
      rw [htable]
      refine .cons ⟨.obj [], ?_, ?_⟩ (.cons ⟨storedReadings, hr' ▸ readings_readBack, rfl⟩ .nil)
      · rw [hr]
        exact ⟨[], trivial, List.Perm.nil⟩
      · rw [← hr]
        rfl
    refine ⟨s, _, hs, hback, ?_, ((digest_survives_iff verifiedSha_collisionFree).2 _ s _ hs ?_ hback).mpr ?_⟩
    · simp only [List.map_cons, List.map_nil, hr]
      rfl
    · rw [htable]
      simp only [List.forall_mem_cons, List.not_mem_nil, false_implies, implies_true, and_true, hr, hr']
      exact ⟨by simp [Json.Distinct, Json.DistinctMembers], hdistinct⟩
    · rw [htable]
      simp only [List.forall_mem_cons, List.not_mem_nil, false_implies, implies_true, and_true, hr, hr']
      exact ⟨rfl, hkeeps⟩

/-- 1e16 -/
def tenPow16 : Double := ⟨false, 5 * 10 ^ 15, 1, by decide, by decide, by decide, by decide⟩

def largeEntry : Entry := ⟨sampleTime, none, "tester", "test.event", "s", .obj [("x", .float tenPow16)]⟩

theorem storedNumber_tenPow16 : Json.storedNumber (Numeral.ofDouble tenPow16) = some (.num (10 ^ 16)) := by
  have h : (Numeric.ofNumeral (Numeral.ofDouble tenPow16)).numeral = Numeral.ofInt (10 ^ 16) := by decide +kernel
  rw [Json.storedNumber, h, Json.ofNumeral_ofInt]

/-- The float 1e16 comes back as an integer, with another digest. -/
theorem digest_changed :
    CollisionFree sampleSha ∧ largeEntry.payload.Distinct ∧
      largeEntry.payload.ReadBack (.obj [("x", .num (10 ^ 16))]) ∧
      digest sampleSha GENESIS (largeEntry.withPayload (.obj [("x", .num (10 ^ 16))])) ≠
        digest sampleSha GENESIS largeEntry := by
  refine ⟨sampleSha_collisionFree, ?_, ⟨[("x", .num (10 ^ 16))], ?_, List.Perm.refl _⟩, fun h => ?_⟩
  · simp [largeEntry, Json.Distinct, Json.DistinctMembers]
  · simp only [Json.ReadBackMembers, Json.ReadBack]
    exact ⟨trivial, storedNumber_tenPow16, trivial⟩
  · have := (canonical_alike.mp (Json.dumps_inj.mp (sampleSha_collisionFree.inj h))).2
    simp [Entry.content, Entry.withPayload, largeEntry, Json.canon, Json.canonMembers] at this

end Blackboard.AuditLog
