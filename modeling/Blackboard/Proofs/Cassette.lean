import Blackboard.Spec.Cassette

/-! The round trip of the cassettes. The reader splits where Python sees the end of a line, and
three of those characters stand unescaped in what the writer wrote. -/

namespace Blackboard.Cassette

variable {key kind path : String} {c d : Cassette}

/-- What the name of the header has to be: it sorts before "meta", and is plain text. -/
structure HeaderKey (key : String) : Prop where
  le : key ≤ "meta"
  ne : key ≠ "meta"
  plain : key.toList.any Json.isRawBreak = false

theorem headerKey_cassette : HeaderKey "cassette" := ⟨by decide +kernel, by decide, by decide +kernel⟩

theorem headerKey_llm : HeaderKey "llm_cassette" := ⟨by decide +kernel, by decide, by decide +kernel⟩

theorem header_canon (hk : HeaderKey key) (m : Json) :
    (Json.obj [(key, .num 1), ("meta", m)]).canon = .obj [(key, .num 1), ("meta", m.canon)] := by
  rw [Json.canon, Json.canonMembers, Json.canonMembers, Json.canonMembers]
  congr 1
  refine List.Pairwise.insertionSort_eq (List.pairwise_cons.mpr ⟨fun b hb => ?_, List.pairwise_singleton _ _⟩)
  rw [List.mem_singleton.mp hb]
  exact hk.le

theorem lines_oneLine (hk : HeaderKey key) :
    (∃ l ∈ (c.lines key).map fun j => j.dumps.toList, ∃ x ∈ l, Lines.isBreak x = true) ↔ c.oneLineEach = false := by
  have hmeta : "meta".toList.any Json.isRawBreak = false := by decide +kernel
  have hheader : (Json.obj [(key, .num 1), ("meta", c.metadata)]).anyChar Json.isRawBreak =
      c.metadata.anyChar Json.isRawBreak := by
    simp only [Json.anyChar, Json.anyCharMembers, hk.plain, hmeta, Bool.false_or, Bool.or_false]
  constructor
  · rintro ⟨l, hl, x, hx, hb⟩
    obtain ⟨j, hj, rfl⟩ := List.mem_map.mp hl
    have hany := (Json.dumps_break j).mp ⟨x, hx, hb⟩
    rcases List.mem_cons.mp hj with rfl | hj
    · rw [hheader] at hany
      exact List.all_eq_false.mpr ⟨c.metadata, by simp, by simp [hany]⟩
    · exact List.all_eq_false.mpr ⟨j, by simp [hj], by simp [hany]⟩
  · intro h
    obtain ⟨j, hj, hany⟩ := List.all_eq_false.mp h
    replace hany : j.anyChar Json.isRawBreak = true := by simpa using hany
    rcases List.mem_cons.mp hj with rfl | hj
    · rw [← hheader] at hany
      exact ⟨_, List.mem_map.mpr ⟨_, List.mem_cons_self, rfl⟩, (Json.dumps_break _).mpr hany⟩
    · exact ⟨_, List.mem_map.mpr ⟨j, List.mem_cons_of_mem _ hj, rfl⟩, (Json.dumps_break _).mpr hany⟩

theorem mapM_json (es : List Json) : (es.map fun j => j.dumps.toList).mapM json = .ok (es.map Json.canon) := by
  induction es with
  | nil => rfl
  | cons e es ih =>
    rw [List.map_cons, List.mapM_cons, ih, json, String.ofList_toList, Json.loads_dumps]
    rfl

theorem length_mapM {ls : List (List Char)} {js : List Json} (h : ls.mapM json = .ok js) : js.length = ls.length := by
  induction ls generalizing js with
  | nil => cases h; rfl
  | cons l ls ih =>
    rw [List.mapM_cons] at h
    cases hj : json l with
    | error e => rw [hj] at h; cases h
    | ok j =>
      cases hs : ls.mapM json with
      | error e => rw [hj, hs] at h; cases h
      | ok ks =>
        rw [hj, hs] at h
        cases h
        rw [List.length_cons, List.length_cons, ih hs]

theorem forall₂_canon (es : List Json) : List.Forall₂ Json.Alike (es.map Json.canon) es := by
  induction es with
  | nil => exact .nil
  | cons e es ih => exact .cons (Json.canon_canon e) ih

theorem loadText_dumpText (hk : HeaderKey key) (h : c.oneLineEach = true) :
    ∃ d, loadText key kind path (c.dumpText key) = .ok d ∧ d.Same c := by
  have hlines : Lines.nonblank (c.dumpText key).toList = (c.lines key).map fun j => j.dumps.toList := by
    rw [dumpText, String.toList_ofList]
    refine Lines.nonblank_unlines (by simp [lines]) (fun l hl => ?_) fun l hl x hx => ?_
    · obtain ⟨j, -, rfl⟩ := List.mem_map.mp hl
      exact j.visible_dumps
    · by_contra hb
      have := (lines_oneLine hk).mp ⟨l, hl, x, hx, by simpa using hb⟩
      rw [h] at this
      cases this
  refine ⟨⟨c.entries.map Json.canon, c.metadata.canon⟩, ?_, c.metadata.canon_canon, forall₂_canon _⟩
  have hj : json (Json.obj [(key, .num 1), ("meta", c.metadata)]).dumps.toList =
      .ok (.obj [(key, .num 1), ("meta", c.metadata.canon)]) := by
    rw [json, String.ofList_toList, Json.loads_dumps, header_canon hk]
  have hheader : readHeader key kind path (.obj [(key, .num 1), ("meta", c.metadata.canon)]) =
      .ok c.metadata.canon := by
    simp [readHeader, Json.member?, hk.ne.symm, isOne]
  rw [loadText, hlines, lines, List.map_cons]
  dsimp only
  rw [hj, mapM_json]
  show (readHeader key kind path _).bind _ = _
  rw [hheader]
  rfl

theorem loadText_length (h : loadText key kind path (c.dumpText key) = .ok d) :
    d.entries.length + 1 = (Lines.nonblank (c.dumpText key).toList).length := by
  unfold loadText at h
  split at h
  · cases h
  · rename_i first rest hlines
    rw [hlines, List.length_cons]
    cases hj : json first with
    | error e => rw [hj] at h; cases h
    | ok j =>
      rw [hj] at h
      change (readHeader key kind path j).bind _ = _ at h
      cases hm : readHeader key kind path j with
      | error e => rw [hm] at h; cases h
      | ok m =>
        rw [hm] at h
        change (rest.mapM json).bind _ = _ at h
        cases hs : rest.mapM json with
        | error e => rw [hs] at h; cases h
        | ok js =>
          rw [hs] at h
          cases h
          rw [length_mapM hs]

theorem roundTrip_iff (hk : HeaderKey key) :
    (∃ d, loadText key kind path (c.dumpText key) = .ok d ∧ d.Same c) ↔ c.oneLineEach = true := by
  refine ⟨fun ⟨d, hd, hs⟩ => ?_, loadText_dumpText hk⟩
  by_contra hone
  have hlt : (c.lines key).length < (Lines.nonblank (c.dumpText key).toList).length := by
    rw [dumpText, String.toList_ofList]
    have hvisible : ∀ l ∈ (c.lines key).map fun j => j.dumps.toList, Lines.Visible l := by
      intro l hl
      obtain ⟨j, -, rfl⟩ := List.mem_map.mp hl
      exact j.visible_dumps
    have := Lines.lt_length_nonblank hvisible ((lines_oneLine hk).mpr (by simpa using hone))
    simpa using this
  rw [← loadText_length hd, lines, List.length_cons, hs.entries.length_eq] at hlt
  exact absurd hlt (lt_irrefl _)

/-- Loading what `dump` wrote gives the metadata and the entries back exactly if no string in
them has U+0085, U+2028 or U+2029. -/
theorem cassette_roundTrip_iff (c : Cassette) (path : String) :
    ((∃ d, load path c.dump = .ok d ∧ d.Same c) ↔ c.oneLineEach = true) ∧
      ((∃ d, LLMCassette.load path (LLMCassette.dump c) = .ok d ∧ d.Same c) ↔ c.oneLineEach = true) :=
  ⟨roundTrip_iff headerKey_cassette, roundTrip_iff headerKey_llm⟩

/-- One log line with a LINE SEPARATOR in it. -/
def splitCassette : Cassette := { entries := [.obj [("raw", .str (String.ofList ['a', Char.ofNat 0x2028, 'b']))]] }

theorem cassette_split : ¬ ∃ d, load "run.jsonl" splitCassette.dump = .ok d ∧ d.Same splitCassette := by
  rw [load, dump, roundTrip_iff headerKey_cassette]
  decide +kernel

end Blackboard.Cassette
