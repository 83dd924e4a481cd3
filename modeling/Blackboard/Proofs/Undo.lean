import Blackboard.Proofs.Patch

/-! Whether an undo has anything to do. The two templates are compared with the hash label and the
restart annotation taken out of their maps; a map that held nothing else stays behind, and is not
the same as no map. -/

namespace Blackboard.K8s

open Json

/-- A document as Python has it: the members of every object have different names. -/
structure Document where
  json : Json
  distinct : json.Distinct

/-! Taking a name out of a map. -/

theorem distinctMembers_iff (ms : List (String × Json)) : DistinctMembers ms ↔ ∀ m ∈ ms, m.2.Distinct := by
  induction ms with
  | nil => simp [DistinctMembers]
  | cons m ms ih => rw [DistinctMembers, ih, List.forall_mem_cons]

theorem distinct_erase {j : Json} (h : j.Distinct) (k : String) : (j.erase k).Distinct := by
  cases j with
  | obj ms =>
    refine ⟨h.1.sublist (List.filter_sublist.map _), ?_⟩
    rw [distinctMembers_iff]
    exact fun m hm => (distinctMembers_iff ms).mp h.2 m (List.mem_of_mem_filter hm)
  | _ => exact h

theorem distinct_modify {f : Json → Json} (hf : ∀ v : Json, v.Distinct → (f v).Distinct) (ks : List String) {j : Json}
    (h : j.Distinct) : (j.modify ks f).Distinct := by
  induction ks generalizing j with
  | nil =>
    cases j with
    | obj ms => exact hf _ h
    | _ => exact hf _ h
  | cons k ks ih =>
    cases j with
    | obj ms =>
      have hnames : (ms.map fun m => if m.1 = k then (m.1, m.2.modify ks f) else m).map Prod.fst = ms.map Prod.fst := by
        rw [List.map_map]
        exact List.map_congr_left fun m _ => by by_cases hm : m.1 = k <;> simp [hm]
      refine ⟨?_, ?_⟩
      · rw [hnames]; exact h.1
      · rw [distinctMembers_iff]
        intro m hm
        obtain ⟨n, hn, rfl⟩ := List.mem_map.mp hm
        have hd := (distinctMembers_iff ms).mp h.2 n hn
        split_ifs
        · exact ih hd
        · exact hd
    | _ => exact h

/-- What `popped` gives back has maps where it looked for one, and is as distinct as what it got. -/
theorem popped_maps {field key : String} {t u : Json} (h : popped field key t = .ok u) :
    u.isObj = true ∧ (∀ v, u.path? ["metadata"] = some v → v.isObj = true) ∧
      (∀ v, u.path? ["metadata", field] = some v → v.isObj = true) ∧ (t.Distinct → u.Distinct) := by
  obtain ⟨o, ho, h⟩ := bind_ok h
  obtain ⟨⟨ms, rfl⟩, hget⟩ := getOpt_ok ho
  cases o with
  | none =>
    obtain rfl := Except.ok.inj h
    refine ⟨rfl, fun v hv => ?_, fun v hv => ?_, id⟩
    · rw [path?_cons, hget] at hv; cases hv
    · rw [path?_cons, hget] at hv; cases hv
  | some metadata =>
    obtain ⟨o', ho', h⟩ := bind_ok h
    obtain ⟨⟨ns, rfl⟩, hget'⟩ := getOpt_ok ho'
    cases o' with
    | none =>
      obtain rfl := Except.ok.inj h
      refine ⟨rfl, fun v hv => ?_, fun v hv => ?_, id⟩
      · rw [path?_cons, hget, Option.bind_some, path?_nil] at hv
        rw [← Option.some.inj hv]; rfl
      · rw [path?_cons, hget, Option.bind_some, path?_cons, hget'] at hv; cases hv
    | some l =>
      cases l with
      | obj ls =>
        obtain rfl := Except.ok.inj h
        refine ⟨rfl, fun v hv => ?_, fun v hv => ?_, distinct_modify (fun w hw => distinct_erase hw key) _⟩
        · rw [path?_cons, get?_modify, if_pos rfl, hget, Option.map_some, Option.bind_some, path?_nil] at hv
          rw [← Option.some.inj hv]; rfl
        · rw [path?_cons, get?_modify, if_pos rfl, hget, Option.map_some, Option.bind_some, path?_cons, get?_modify,
            if_pos rfl, hget', Option.map_some, Option.bind_some, path?_nil] at hv
          rw [← Option.some.inj hv]; rfl
      | _ => cases h

/-! A template without the two names. -/

theorem agree_none : Agree none none := trivial

theorem agree_maps {x y : Option Json} (hx : ∀ v, x = some v → v.isObj = true ∧ v.Distinct)
    (hy : ∀ v, y = some v → v.isObj = true ∧ v.Distinct) :
    Agree x y ↔ (x.isSome ↔ y.isSome) ∧ ∀ k, Agree (x.bind fun v => v.get? k) (y.bind fun v => v.get? k) := by
  cases x with
  | none =>
    cases y with
    | none => simp [Agree]
    | some w => simp [Agree]
  | some v =>
    cases y with
    | none => simp [Agree]
    | some w =>
      obtain ⟨hv, hvd⟩ := hx v rfl
      obtain ⟨hw, hwd⟩ := hy w rfl
      cases v with
      | obj ms =>
        cases w with
        | obj ns => simpa [Agree] using same_obj_iff hvd.1 hwd.1
        | _ => cases hw
      | _ => cases hv

/-- The templates are equal once the hash label and the restart annotation are left out; no map is as
good as an empty one. -/
def SameBut (a b : Json) : Prop :=
  (∀ k, k ≠ "metadata" → Agree (a.path? [k]) (b.path? [k])) ∧
    (∀ k, k ≠ "labels" → k ≠ "annotations" → Agree (a.path? ["metadata", k]) (b.path? ["metadata", k])) ∧
    (∀ k, k ≠ POD_TEMPLATE_HASH → Agree (a.path? ["metadata", "labels", k]) (b.path? ["metadata", "labels", k])) ∧
    ∀ k, k ≠ RESTARTED_AT → Agree (a.path? ["metadata", "annotations", k]) (b.path? ["metadata", "annotations", k])

/-- The templates have the same of the maps that hold the two names. -/
def SameMaps (a b : Json) : Prop :=
  ∀ q ∈ [["metadata"], ["metadata", "labels"], ["metadata", "annotations"]], ((a.path? q).isSome ↔ (b.path? q).isSome)

/-- `u` is `t` cleaned. -/
structure Cleaned (t u : Json) : Prop where
  obj : u.isObj = true
  distinct : u.Distinct
  maps : ∀ q ∈ [["metadata"], ["metadata", "labels"], ["metadata", "annotations"]],
    (∀ v, u.path? q = some v → v.isObj = true) ∧ ((u.path? q).isSome ↔ (t.path? q).isSome)
  hash : u.path? ["metadata", "labels", POD_TEMPLATE_HASH] = none
  restarted : u.path? ["metadata", "annotations", RESTARTED_AT] = none
  rest : ∀ q, ¬ q <+: ["metadata", "labels", POD_TEMPLATE_HASH] → ¬ q <+: ["metadata", "annotations", RESTARTED_AT] →
    ¬ ["metadata", "labels", POD_TEMPLATE_HASH] <+: q → ¬ ["metadata", "annotations", RESTARTED_AT] <+: q →
    u.path? q = t.path? q

theorem cleanTemplate_ok {t u : Json} (hd : t.Distinct) (h : cleanTemplate t = .ok u) : Cleaned t u := by
  obtain ⟨s, hs, h⟩ := bind_ok h
  obtain ⟨hhash, hframe, hmaps⟩ := popped_ok hs
  obtain ⟨-, hsmeta, hslabels, hsd⟩ := popped_maps hs
  obtain ⟨hrest, hframe', hmaps'⟩ := popped_ok h
  obtain ⟨hobj, hmeta, hann, hud⟩ := popped_maps h
  have hlabels : u.path? ["metadata", "labels"] = s.path? ["metadata", "labels"] := hframe' _ (by decide) (by decide)
  have hannotations : s.path? ["metadata", "annotations"] = t.path? ["metadata", "annotations"] :=
    hframe _ (by decide) (by decide)
  refine ⟨hobj, hud (hsd hd), fun q hq => ?_, ?_, hrest, fun q h1 h2 h3 h4 => ?_⟩
  · simp only [List.mem_cons, List.not_mem_nil, or_false] at hq
    rcases hq with rfl | rfl | rfl
    · exact ⟨hmeta, (hmaps' _ (by decide) (by decide)).trans (hmaps _ (by decide) (by decide))⟩
    · rw [hlabels]
      exact ⟨hslabels, hmaps _ (by decide) (by decide)⟩
    · rw [← hannotations]
      exact ⟨hann, hmaps' _ (by decide) (by decide)⟩
  · rw [hframe' _ (by decide) (by decide), hhash]
  · rw [hframe' q h4 h2, hframe q h3 h1]

/-- The label is dropped before the comparison, and once more in it. -/
theorem cleaned_again {t s u : Json} (hs : withoutHash t = .ok s) (hd : t.Distinct) (h : cleanTemplate s = .ok u) :
    Cleaned t u := by
  obtain ⟨-, hframe, hmaps⟩ := popped_ok hs
  obtain ⟨-, -, -, hsd⟩ := popped_maps hs
  obtain ⟨hobj, hud, hm, hhash, hrestarted, hrest⟩ := cleanTemplate_ok (hsd hd) h
  refine ⟨hobj, hud, fun q hq => ⟨(hm q hq).1, (hm q hq).2.trans ?_⟩, hhash, hrestarted, fun q h1 h2 h3 h4 => ?_⟩
  · simp only [List.mem_cons, List.not_mem_nil, or_false] at hq
    rcases hq with rfl | rfl | rfl
    · exact hmaps _ (by decide) (by decide)
    · exact hmaps _ (by decide) (by decide)
    · rw [hframe _ (by decide) (by decide)]
  · rw [hrest q h1 h2 h3 h4, hframe q h3 h1]

theorem forall_split {P : String → Prop} (k : String) : (∀ l, P l) ↔ (∀ l, l ≠ k → P l) ∧ P k := by
  refine ⟨fun h => ⟨fun l _ => h l, h k⟩, fun h l => ?_⟩
  by_cases hl : l = k
  · exact hl ▸ h.2
  · exact h.1 l hl

section Same

variable {a b a' b' : Json}

/-- Maps at one path agree if both are there or neither is, and what is in them agrees. -/
theorem agree_at {q : List String} (ha : ∀ v, a.path? q = some v → v.isObj = true)
    (hb : ∀ v, b.path? q = some v → v.isObj = true) (had : a.Distinct) (hbd : b.Distinct) :
    Agree (a.path? q) (b.path? q) ↔
      ((a.path? q).isSome ↔ (b.path? q).isSome) ∧ ∀ k, Agree (a.path? (q ++ [k])) (b.path? (q ++ [k])) := by
  have hone : ∀ j : Json, ∀ k, j.path? (q ++ [k]) = (j.path? q).bind fun v => v.get? k := fun j k => by
    rw [path?_append]
    refine Option.bind_congr fun v _ => ?_
    rw [path?_cons]
    cases v.get? k <;> simp
  simp only [hone]
  exact agree_maps (fun v hv => ⟨ha v hv, had.path? hv⟩) (fun v hv => ⟨hb v hv, hbd.path? hv⟩)

/-- Off the two names and the maps on the way to them a cleaned template is the template. -/
theorem agree_rest (ha : Cleaned a a') (hb : Cleaned b b') {q : List String}
    (h1 : ¬ q <+: ["metadata", "labels", POD_TEMPLATE_HASH]) (h2 : ¬ q <+: ["metadata", "annotations", RESTARTED_AT])
    (h3 : ¬ ["metadata", "labels", POD_TEMPLATE_HASH] <+: q) (h4 : ¬ ["metadata", "annotations", RESTARTED_AT] <+: q) :
    Agree (a'.path? q) (b'.path? q) ↔ Agree (a.path? q) (b.path? q) := by
  rw [ha.rest q h1 h2 h3 h4, hb.rest q h1 h2 h3 h4]

theorem agree_map (ha : Cleaned a a') (hb : Cleaned b b') {q : List String}
    (hq : q ∈ [["metadata"], ["metadata", "labels"], ["metadata", "annotations"]]) :
    Agree (a'.path? q) (b'.path? q) ↔
      ((a.path? q).isSome ↔ (b.path? q).isSome) ∧ ∀ k, Agree (a'.path? (q ++ [k])) (b'.path? (q ++ [k])) := by
  rw [agree_at (ha.maps q hq).1 (hb.maps q hq).1 ha.distinct hb.distinct, (ha.maps q hq).2, (hb.maps q hq).2]

theorem agree_labels (ha : Cleaned a a') (hb : Cleaned b b') :
    Agree (a'.path? ["metadata", "labels"]) (b'.path? ["metadata", "labels"]) ↔
      ((a.path? ["metadata", "labels"]).isSome ↔ (b.path? ["metadata", "labels"]).isSome) ∧
      ∀ k, k ≠ POD_TEMPLATE_HASH → Agree (a.path? ["metadata", "labels", k]) (b.path? ["metadata", "labels", k]) := by
  rw [agree_map ha hb (by simp), forall_split POD_TEMPLATE_HASH]
  simp only [List.cons_append, List.nil_append]
  rw [ha.hash, hb.hash, and_iff_left agree_none]
  exact and_congr_right fun _ => forall₂_congr fun k hk =>
    agree_rest ha hb (by simpa using hk) (by simp) (by simpa using Ne.symm hk) (by simp)

theorem agree_annotations (ha : Cleaned a a') (hb : Cleaned b b') :
    Agree (a'.path? ["metadata", "annotations"]) (b'.path? ["metadata", "annotations"]) ↔
      ((a.path? ["metadata", "annotations"]).isSome ↔ (b.path? ["metadata", "annotations"]).isSome) ∧
      ∀ k, k ≠ RESTARTED_AT →
        Agree (a.path? ["metadata", "annotations", k]) (b.path? ["metadata", "annotations", k]) := by
  rw [agree_map ha hb (by simp), forall_split RESTARTED_AT]
  simp only [List.cons_append, List.nil_append]
  rw [ha.restarted, hb.restarted, and_iff_left agree_none]
  exact and_congr_right fun _ => forall₂_congr fun k hk =>
    agree_rest ha hb (by simp) (by simpa using hk) (by simp) (by simpa using Ne.symm hk)

theorem agree_metadata (ha : Cleaned a a') (hb : Cleaned b b') :
    Agree (a'.path? ["metadata"]) (b'.path? ["metadata"]) ↔
      ((a.path? ["metadata"]).isSome ↔ (b.path? ["metadata"]).isSome) ∧
      (∀ k, k ≠ "labels" → k ≠ "annotations" → Agree (a.path? ["metadata", k]) (b.path? ["metadata", k])) ∧
      Agree (a'.path? ["metadata", "labels"]) (b'.path? ["metadata", "labels"]) ∧
      Agree (a'.path? ["metadata", "annotations"]) (b'.path? ["metadata", "annotations"]) := by
  rw [agree_map ha hb (by simp)]
  simp only [List.cons_append, List.nil_append]
  have hrest : ∀ k, k ≠ "labels" → k ≠ "annotations" →
      (Agree (a'.path? ["metadata", k]) (b'.path? ["metadata", k]) ↔
        Agree (a.path? ["metadata", k]) (b.path? ["metadata", k])) :=
    fun k hk hk' => agree_rest ha hb (by simpa using hk) (by simpa using hk') (by simp) (by simp)
  refine and_congr_right fun _ => ⟨fun h => ⟨fun k hk hk' => (hrest k hk hk').mp (h k), h _, h _⟩,
    fun ⟨h, hl, hr⟩ k => ?_⟩
  by_cases hk : k = "labels"
  · exact hk ▸ hl
  · by_cases hk' : k = "annotations"
    · exact hk' ▸ hr
    · exact (hrest k hk hk').mpr (h k hk hk')

theorem same_cleaned (ha : Cleaned a a') (hb : Cleaned b b') : a'.same b' = true ↔ SameBut a b ∧ SameMaps a b := by
  have hself : ∀ {t u : Json}, Cleaned t u → ∀ v, u.path? [] = some v → v.isObj = true := fun h v hv => by
    rw [path?_nil] at hv
    exact Option.some.inj hv ▸ h.obj
  have htop : a'.same b' = true ↔ ∀ k, Agree (a'.path? [k]) (b'.path? [k]) := by
    simpa [Agree] using agree_at (hself ha) (hself hb) ha.distinct hb.distinct
  have hnames : (∀ k, k ≠ "metadata" → Agree (a'.path? [k]) (b'.path? [k])) ↔
      ∀ k, k ≠ "metadata" → Agree (a.path? [k]) (b.path? [k]) :=
    forall₂_congr fun k hk => agree_rest ha hb (by simpa using hk) (by simpa using hk) (by simp) (by simp)
  rw [htop, forall_split "metadata", hnames, agree_metadata ha hb, agree_labels ha hb, agree_annotations ha hb]
  constructor
  · rintro ⟨h1, hm, h2, ⟨hl, h3⟩, hr, h4⟩
    refine ⟨⟨h1, h2, h3, h4⟩, fun q hq => ?_⟩
    simp only [List.mem_cons, List.not_mem_nil, or_false] at hq
    rcases hq with rfl | rfl | rfl
    · exact hm
    · exact hl
    · exact hr
  · rintro ⟨⟨h1, h2, h3, h4⟩, hmaps⟩
    exact ⟨h1, hmaps _ (by simp), h2, ⟨hmaps _ (by simp), h3⟩, hmaps _ (by simp), h4⟩

end Same

/-! What the comparison needs of a template: an object, whose maps are objects where they are there. -/

def MapsAt (field : String) (t : Json) : Prop :=
  t.isObj = true ∧ (∀ v, t.path? ["metadata"] = some v → v.isObj = true) ∧
    ∀ v, t.path? ["metadata", field] = some v → v.isObj = true

theorem popped_iff {field key : String} {t : Json} : (∃ u, popped field key t = .ok u) ↔ MapsAt field t := by
  constructor
  · rintro ⟨u, h⟩
    obtain ⟨o, ho, h⟩ := bind_ok h
    obtain ⟨⟨ms, rfl⟩, hget⟩ := getOpt_ok ho
    refine ⟨rfl, ?_⟩
    cases o with
    | none =>
      simp only [path?_cons, hget, Option.bind_none]
      exact ⟨nofun, nofun⟩
    | some metadata =>
      obtain ⟨o', ho', h⟩ := bind_ok h
      obtain ⟨⟨ns, rfl⟩, hget'⟩ := getOpt_ok ho'
      simp only [path?_cons, hget, hget', Option.bind_some, path?_nil]
      refine ⟨fun v hv => by cases hv; rfl, fun v hv => ?_⟩
      obtain ⟨l, rfl, hl⟩ := Option.bind_eq_some_iff.mp hv
      cases hl
      cases v with
      | obj => rfl
      | _ => cases h
  · rintro ⟨hobj, hmeta, hfield⟩
    cases t with
    | obj ms =>
      cases hm : member? ms "metadata" with
      | none => exact ⟨_, by rw [popped, getOpt, hm]; rfl⟩
      | some metadata =>
        simp only [path?_cons, get?, hm, Option.bind_some, path?_nil] at hmeta hfield
        cases metadata with
        | obj ns =>
          cases hn : member? ns field with
          | none => exact ⟨_, by rw [popped, getOpt, hm]; simp only [bind, Except.bind, getOpt, hn]; rfl⟩
          | some l =>
            cases l with
            | obj ls => exact ⟨_, by rw [popped, getOpt, hm]; simp only [bind, Except.bind, getOpt, hn]; rfl⟩
            | _ => simp [hn, isObj] at hfield
        | _ => cases hmeta _ rfl
    | _ => cases hobj

/-- What is known of the maps of a template stays so when the label is dropped. -/
theorem MapsAt.withoutHash {t u : Json} (h : MapsAt "annotations" t) (hu : withoutHash t = .ok u) :
    MapsAt "annotations" u := by
  obtain ⟨-, hframe, -⟩ := popped_ok hu
  obtain ⟨hobj, hmeta, -, -⟩ := popped_maps hu
  exact ⟨hobj, hmeta, by rw [hframe _ (by decide) (by decide)]; exact h.2.2⟩

/-- A template that can be cleaned. -/
def Shaped (t : Json) : Prop := MapsAt "labels" t ∧ MapsAt "annotations" t

theorem cleanTemplate_iff {t : Json} : (∃ u, cleanTemplate t = .ok u) ↔ Shaped t := by
  constructor
  · rintro ⟨u, h⟩
    obtain ⟨s, hs, h⟩ := bind_ok h
    obtain ⟨hobj, hmeta, hann⟩ := popped_iff.mp ⟨u, h⟩
    obtain ⟨-, hframe, -⟩ := popped_ok hs
    obtain ⟨hobj', hmeta', hlabels⟩ := popped_iff.mp ⟨s, hs⟩
    exact ⟨⟨hobj', hmeta', hlabels⟩, hobj', hmeta', by rw [← hframe _ (by decide) (by decide)]; exact hann⟩
  · rintro ⟨hl, ha⟩
    obtain ⟨s, hs⟩ := popped_iff.mpr hl
    obtain ⟨u, hu⟩ := popped_iff.mpr (ha.withoutHash hs)
    exact ⟨u, by rw [cleanTemplate]; exact (congrArg (· >>= _) hs).trans hu⟩

theorem Shaped.withoutHash {t u : Json} (h : Shaped t) (hu : withoutHash t = .ok u) : Shaped u := by
  obtain ⟨hobj, hmeta, hlabels, -⟩ := popped_maps hu
  exact ⟨⟨hobj, hmeta, hlabels⟩, h.2.withoutHash hu⟩

/-! Preparing an undo. -/

/-- Preparing the undo reports that there is nothing to do. -/
def Recognised (deployment : String) (toRevision : Option ℕ) (dep : Json) (rss : List Json) (note : String) : Prop :=
  ∃ p, undo deployment toRevision dep rss note = .ok p ∧ p.noop = true

/-- The revision that is named, if one is, is not the one the Deployment is at. -/
def Elsewhere (toRevision : Option ℕ) (dep : Json) : Prop :=
  ∀ n : ℕ, toRevision = some n → (need dep ["metadata"] >>= revision) ≠ .ok (n : ℤ)

/-- What is recorded of the Deployment before a change is there, and the templates can be cleaned. -/
def Readable (dep t current : Json) : Prop := (∃ b, before dep = .ok b) ∧ Shaped t ∧ Shaped current

/-- The template comes of one of the ReplicaSets. -/
theorem targetTemplate_distinct {deployment : String} {toRevision : Option ℕ} {dep t : Json} {rss : List Document}
    (ht : targetTemplate deployment toRevision dep (rss.map Document.json) = .ok t) : t.Distinct := by
  obtain ⟨_, -, h⟩ := bind_ok ht
  obtain ⟨_, -, h⟩ := bind_ok h
  obtain ⟨revs, hrevs, h⟩ := bind_ok h
  obtain ⟨rev, -, h⟩ := bind_ok h
  cases hl : lookup revs rev with
  | none => rw [hl] at h; cases h
  | some rs =>
    rw [hl] at h
    obtain ⟨r, -, rfl⟩ := List.mem_map.mp ((byRevision_ok hrevs).1 _ (lookup_mem hl)).1
    exact r.distinct.path? (need_ok h)

section Undo

variable {deployment note : String} {toRevision : Option ℕ} {dep t current : Json} {rss : List Json} {p : Prepared}

theorem undo_reads (h : undo deployment toRevision dep rss note = .ok p)
    (ht : targetTemplate deployment toRevision dep rss = .ok t) (hc : dep.path? ["spec", "template"] = some current) :
    Elsewhere toRevision dep ∧ Readable dep t current := by
  obtain ⟨rs, t', template, current', htarget, -, htt, htemplate, hcurrent, hsame⟩ := undo_ok h
  obtain rfl := Except.ok.inj (htt.symm.trans ht)
  obtain rfl := Option.some.inj (hcurrent.symm.trans hc)
  refine ⟨fun n hn he => ?_, ?_, ?_⟩
  · obtain ⟨metadata, cur, rev, hmeta, hcur, -, hne, hrev⟩ := htarget.revision
    obtain ⟨m, hm, he⟩ := bind_ok he
    obtain rfl := Option.some.inj (hmeta.symm.trans (need_ok hm))
    subst hn
    exact hne (hrev.trans (Except.ok.inj (he.symm.trans hcur)))
  · obtain ⟨_, -, h⟩ := bind_ok h
    obtain ⟨_, -, h⟩ := bind_ok h
    obtain ⟨b, hb, -⟩ := bind_ok h
    exact ⟨b, hb⟩
  · have hs : ∃ b, sameTemplate template current' = .ok b := hsame.elim (fun h => ⟨_, h.1⟩) fun h => ⟨_, h.1⟩
    obtain ⟨b, hs⟩ := hs
    obtain ⟨u, hu, hs⟩ := bind_ok hs
    obtain ⟨v, hv, -⟩ := bind_ok hs
    obtain ⟨-, hframe, -⟩ := popped_ok htemplate
    obtain ⟨-, -, hann⟩ := (cleanTemplate_iff.mp ⟨u, hu⟩).2
    have hlabels := popped_iff.mp ⟨template, htemplate⟩
    refine ⟨⟨hlabels, hlabels.1, hlabels.2.1, ?_⟩, cleanTemplate_iff.mp ⟨v, hv⟩⟩
    rw [← hframe _ (by decide) (by decide)]
    exact hann

/-- Where the reading goes through, what is left is the comparison. -/
theorem undo_same (helse : Elsewhere toRevision dep) (hb : ∃ b, before dep = .ok b)
    (ht : targetTemplate deployment toRevision dep rss = .ok t) {template : Json}
    (htemplate : withoutHash t = .ok template) (hc : dep.path? ["spec", "template"] = some current)
    (hs : sameTemplate template current = .ok true) :
    Recognised deployment toRevision dep rss note := by
  obtain ⟨metadata, hmeta, h⟩ := bind_ok ht
  obtain ⟨cur, hcur, h⟩ := bind_ok h
  obtain ⟨revs, hrevs, h⟩ := bind_ok h
  obtain ⟨rev, hrev, h⟩ := bind_ok h
  obtain ⟨b, hb⟩ := hb
  cases hl : lookup revs rev with
  | none => rw [hl] at h; cases h
  | some rs =>
    rw [hl] at h
    have hne : rev ≠ cur := by
      have htarget := target_ok hrev
      cases toRevision with
      | some n => exact fun he => helse n rfl (by rw [hmeta, ← (htarget : rev = n), he]; exact hcur)
      | none => exact htarget.2.1.ne
    refine ⟨{ deployment, ops := [], before := b, noop := true,
              summary := deployment ++ " already runs the template of revision " ++ toString rev }, ?_, rfl⟩
    have h : need rs ["spec", "template"] = .ok t := h
    have hc : need dep ["spec", "template"] = .ok current := by rw [need, hc]
    rw [undo]
    simp only [bind, Except.bind, hmeta, hcur, hb, hrevs, hrev, hl, if_neg hne, h, htemplate, hc, hs]
    rfl

end Undo

/-- An undo of a Deployment that already runs the target revision's template is recognised, but not where a map
that holds nothing besides the two names is in one of the templates only, nor where the revision named is the current
one, which is refused. -/
theorem undo_noop_iff (deployment : String) (toRevision : Option ℕ) (dep : Document) (rss : List Document)
    (note : String) (t current : Json)
    (ht : targetTemplate deployment toRevision dep.json (rss.map Document.json) = .ok t)
    (hc : dep.json.path? ["spec", "template"] = some current) :
    (Recognised deployment toRevision dep.json (rss.map Document.json) note ↔ SameBut t current) ↔
      (Elsewhere toRevision dep.json ∧ Readable dep.json t current ∧ SameMaps t current) ∨ ¬ SameBut t current := by
  have hnoop : ∀ template b, withoutHash t = .ok template → sameTemplate template current = .ok b → t.Distinct →
      (b = true ↔ SameBut t current ∧ SameMaps t current) := fun template b htemplate hb hd => by
    obtain ⟨u, hu, hb⟩ := bind_ok hb
    obtain ⟨v, hv, hb⟩ := bind_ok hb
    obtain rfl := Except.ok.inj hb
    exact same_cleaned (cleaned_again htemplate hd hu) (cleanTemplate_ok (dep.distinct.path? hc) hv)
  constructor
  · intro h
    refine or_iff_not_imp_right.mpr fun hs => ?_
    obtain ⟨p, hp, hn⟩ := h.mpr (not_not.mp hs)
    obtain ⟨helse, hread⟩ := undo_reads hp ht hc
    obtain ⟨rs, t', template, current', htarget, hrs, htt, htemplate, hcurrent, hcase⟩ := undo_ok hp
    obtain rfl := Except.ok.inj (htt.symm.trans ht)
    obtain rfl := Option.some.inj (hcurrent.symm.trans hc)
    obtain ⟨r, -, rfl⟩ := List.mem_map.mp htarget.mem
    rcases hcase with ⟨hsame, -⟩ | ⟨-, hn', -⟩
    · exact ⟨helse, hread, ((hnoop template true htemplate hsame (r.distinct.path? hrs)).mp rfl).2⟩
    · rw [hn'] at hn
      cases hn
  · intro h
    have hd : t.Distinct := targetTemplate_distinct ht
    constructor
    · rintro ⟨p, hp, hn⟩
      obtain ⟨rs, t', template, current', -, -, htt, htemplate, hcurrent, hcase⟩ := undo_ok hp
      obtain rfl := Except.ok.inj (htt.symm.trans ht)
      obtain rfl := Option.some.inj (hcurrent.symm.trans hc)
      rcases hcase with ⟨hsame, -⟩ | ⟨-, hn', -⟩
      · exact ((hnoop template true htemplate hsame hd).mp rfl).1
      · rw [hn'] at hn
        cases hn
    · intro hs
      obtain ⟨helse, ⟨hb, hshaped, hcur⟩, hmaps⟩ := h.resolve_right fun hn => hn hs
      obtain ⟨template, htemplate⟩ := popped_iff.mpr hshaped.1
      obtain ⟨u, hu⟩ := cleanTemplate_iff.mpr (hshaped.withoutHash htemplate)
      obtain ⟨v, hv⟩ := cleanTemplate_iff.mpr hcur
      have hsame : sameTemplate template current = .ok (u.same v) := by
        rw [sameTemplate, hu, hv]
        rfl
      have htrue := (hnoop template _ htemplate hsame hd).mpr ⟨hs, hmaps⟩
      exact undo_same helse hb ht htemplate hc (htrue ▸ hsame)

/-- The template of `checkout:2` after a restart. -/
def restartedTemplate : Json :=
  .obj [("metadata", .obj [("labels", .obj [("app", .str "checkout")]),
      ("annotations", .obj [(RESTARTED_AT, .str "2026-10-12T05:31:50+00:00")])]),
    ("spec", .obj [("containers", .arr [.obj [("name", .str "server"), ("image", .str "checkout:2")]])])]

/-- The third revision is the second, restarted. -/
def restartedDeployment : Document where
  json := .obj [("metadata", .obj [("name", .str "checkout"), ("resourceVersion", .str "981"), ("uid", .str "d-1"),
      ("annotations", .obj [(REVISION, .str "3")])]),
    ("spec", .obj [("replicas", .num 1), ("template", restartedTemplate)])]
  distinct := by simp [Distinct, DistinctMembers, DistinctAll, restartedTemplate]

def replicasetDocument (revision image : String) : Document where
  json := sampleReplicaset revision image
  distinct := by simp [Distinct, DistinctMembers, DistinctAll, sampleReplicaset, K8s.sampleTemplate, POD_TEMPLATE_HASH]

def sampleTarget (image : String) : Json :=
  K8s.sampleTemplate image [("app", .str "checkout"), (POD_TEMPLATE_HASH, .str "7d9f")]

def restartedReplicasets : List Document := [replicasetDocument "1" "checkout:1", replicasetDocument "2" "checkout:2"]

theorem restarted_same : SameBut (sampleTarget "checkout:2") restartedTemplate := by
  refine ⟨fun k hk => ?_, fun k hl ha => ?_, fun k hk => ?_, fun k hk => ?_⟩
  · by_cases hs : k = "spec"
    · subst hs
      simp [sampleTarget, K8s.sampleTemplate, restartedTemplate, path?_cons, member?_cons, Agree, same,
        sameMembers, sameAll]
    · simp [sampleTarget, K8s.sampleTemplate, restartedTemplate, path?_cons, member?_cons, Ne.symm hk,
        Ne.symm hs, Agree]
  · simp [sampleTarget, K8s.sampleTemplate, restartedTemplate, path?_cons, member?_cons, Ne.symm hl, Ne.symm ha, Agree]
  · by_cases hs : k = "app"
    · subst hs
      simp [sampleTarget, K8s.sampleTemplate, restartedTemplate, path?_cons, member?_cons, POD_TEMPLATE_HASH,
        Agree, same]
    · simp [sampleTarget, K8s.sampleTemplate, restartedTemplate, path?_cons, member?_cons, Ne.symm hk,
        Ne.symm hs, Agree]
  · simp [sampleTarget, K8s.sampleTemplate, restartedTemplate, path?_cons, member?_cons, Ne.symm hk, Agree]

/-- To the second revision, by default, and to the third, where the Deployment is. -/
theorem undo_noop_iff_restarted :
    ((Recognised "checkout" none restartedDeployment.json (restartedReplicasets.map Document.json) "plan" ↔
        SameBut (sampleTarget "checkout:2") restartedTemplate) ↔
      (Elsewhere none restartedDeployment.json ∧
        Readable restartedDeployment.json (sampleTarget "checkout:2") restartedTemplate ∧
        SameMaps (sampleTarget "checkout:2") restartedTemplate) ∨
          ¬ SameBut (sampleTarget "checkout:2") restartedTemplate) ∧
    ¬ (Recognised "checkout" (some 3) restartedDeployment.json
        ((replicasetDocument "3" "checkout:2" :: restartedReplicasets).map Document.json) "plan" ↔
      SameBut (sampleTarget "checkout:2") restartedTemplate) := by
  refine ⟨undo_noop_iff "checkout" none restartedDeployment restartedReplicasets "plan" _ _ rfl rfl, fun h => ?_⟩
  have hthird := (undo_noop_iff "checkout" (some 3) restartedDeployment
    (replicasetDocument "3" "checkout:2" :: restartedReplicasets) "plan"
      (sampleTarget "checkout:2") restartedTemplate rfl rfl).mp h
  rcases hthird with ⟨helse, -⟩ | hne
  · exact helse 3 rfl rfl
  · exact hne restarted_same

/-- A Deployment that was merely restarted is rolled out once more. -/
theorem restart_not_recognised :
    ¬ ∀ (deployment : String) (toRevision : Option ℕ) (dep : Document) (rss : List Document) (note : String)
      (t current : Json), targetTemplate deployment toRevision dep.json (rss.map Document.json) = .ok t →
      dep.json.path? ["spec", "template"] = some current →
      (Recognised deployment toRevision dep.json (rss.map Document.json) note ↔ SameBut t current) := by
  intro h
  obtain ⟨p, hp, hnoop⟩ :=
    (h "checkout" none restartedDeployment restartedReplicasets "plan" (sampleTarget "checkout:2")
    restartedTemplate rfl rfl).mpr restarted_same
  cases hp
  cases hnoop

end Blackboard.K8s
