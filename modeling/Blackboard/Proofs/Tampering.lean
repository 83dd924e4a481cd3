import Blackboard.Proofs.AuditLog

/-! Tampering with the audit log. Rows that keep the hashes they were appended with pass
`verify` only as the first rows of the log: everything is detected but the loss of rows at
the end, which no row behind them vouches for. -/

namespace Blackboard.AuditLog

/-- SHA-256, taken as collision free: no two texts have one digest, and none has the digest
that stands for the empty chain. -/
structure CollisionFree (sha256 : String → String) : Prop where
  inj : Function.Injective sha256
  genesis : ∀ text, sha256 text ≠ GENESIS
  nonempty : ∀ text, sha256 text ≠ ""

/-- What a row says; the members of an object have no order. -/
def Entry.content (e : Entry) : Datetime × Option String × String × String × String × Json :=
  (e.ts, e.tenantId, e.actor, e.event, e.subject, e.payload.canon)

/-- What `verify` reads of a row, apart from its number. -/
def Row.audited (r : Row) := (r.prevHash, r.hash, r.entry.content)

variable {sha256 : String → String} {p q : String} {e f : Entry} {s : State}

theorem tenant_inj {a b : Option String} (h : (a.map Json.str).getD .null = (b.map Json.str).getD .null) : a = b := by
  cases a <;> cases b <;> simp_all

theorem canonical_alike : (canonical p e).Alike (canonical q f) ↔ p = q ∧ e.content = f.content := by
  have htenant : ∀ o : Option String, ((o.map Json.str).getD .null).canon = (o.map Json.str).getD .null := by
    intro o
    cases o <;> rfl
  simp only [Json.Alike, canonical, Json.canon, Json.canonAll, htenant, Json.arr.injEq, List.cons.injEq,
    Json.str.injEq, Datetime.isoformat_inj, Entry.content, Prod.mk.injEq, and_true]
  constructor
  · rintro ⟨hp, ht, htn, h⟩
    exact ⟨hp, ht, tenant_inj htn, h⟩
  · rintro ⟨hp, ht, htn, h⟩
    exact ⟨hp, ht, by rw [htn], h⟩

theorem digest_congr (h : e.content = f.content) : digest sha256 p e = digest sha256 p f := by
  rw [digest, digest, Json.dumps_inj.mpr (canonical_alike.mpr ⟨rfl, h⟩)]

theorem CollisionFree.chain (hsha : CollisionFree sha256) :
    (chain sha256).CollisionFree fun r : Row => r.entry.content where
  inj _ _ _ _ h := canonical_alike.mp (Json.dumps_inj.mp (hsha.inj h))
  genesis _ _ := hsha.genesis _

/-- For a log that `append` wrote and any rows put in its place that keep hashes of it, in the
order `verify` reads them: they fail unless they are the first rows of the log. -/
theorem tampering_detected_iff (hsha : CollisionFree sha256) {ops : List Op}
    (h : Runs.run (step sha256) init ops = some s) (tampered : List Row)
    (hkept : ∀ a ∈ tampered, ∃ r ∈ s.table, a.hash = r.hash) :
    (verify sha256 tampered).ok = false ↔ ¬ tampered.map Row.audited <+: s.table.map Row.audited := by
  have hlinked := (inv_run hsha.nonempty h).linked_table
  rw [← Bool.not_eq_true, verify_ok_iff]
  exact not_congr (hlinked.iff_isPrefix hsha.chain (fun _ _ _ => digest_congr) hkept)

theorem sampleSha_collisionFree : CollisionFree sampleSha where
  inj := Digest.Proper.injective ⟨by decide, by decide⟩
  genesis := Digest.ofKnown_ne (by decide) (by decide)
  nonempty := sampleSha_ne_empty

/-- The rows of the sample the other way round. -/
theorem tampering_detected_iff_swapped :
    ∃ s, Runs.run (step sampleSha) init sampleOps = some s ∧ s.table.length = 2 ∧
      (verify sampleSha s.table.reverse).ok = false := by
  obtain ⟨s, hs, hrows⟩ := Option.map_eq_some_iff.mp sampleOps_run
  have hlen := congrArg List.length hrows
  rw [List.length_map] at hlen
  refine ⟨s, hs, hlen, (tampering_detected_iff sampleSha_collisionFree hs _ fun a ha => ?_).mpr fun hpre => ?_⟩
  · exact ⟨a, List.mem_reverse.mp ha, rfl⟩
  · have he := hpre.eq_of_length (by simp)
    have hrev := congrArg (List.map fun x : String × String × _ => x.2.2.2.2.2.2.1) he
    have hsub := congrArg (List.map fun x : ℕ × String => x.2) hrows
    simp only [Row.audited, Entry.content, List.map_map, Function.comp_def, List.map_reverse] at hrev hsub
    rw [hsub] at hrev
    exact absurd hrev (by decide)

/-- Without its last row the sample still verifies. -/
theorem tampering_undetected :
    CollisionFree sampleSha ∧ ∃ s, Runs.run (step sampleSha) init sampleOps = some s ∧ s.table.length = 2 ∧
      verify sampleSha (s.table.eraseIdx 1) = { ok := true, checked := 1 } := by
  obtain ⟨s, hs, hrows⟩ := Option.map_eq_some_iff.mp sampleOps_run
  have hlen := congrArg List.length hrows
  rw [List.length_map] at hlen
  have hlinked := ((inv_run sampleSha_ne_empty hs).linked_table).take 1
  have htake : s.table.eraseIdx 1 = s.table.take 1 := by
    rw [List.eraseIdx_eq_take_drop_succ, List.drop_eq_nil_of_le (by simp [hlen]), List.append_nil]
  refine ⟨sampleSha_collisionFree, s, hs, hlen, ?_⟩
  rw [htake]
  exact verify_eq_ok.mpr ⟨hlinked, by simp [hlen]⟩

end Blackboard.AuditLog
