import Blackboard.Lib.JsonPatch
import Blackboard.Spec.K8s

/-! The executor's JSON patches. Applied to the Deployment it was worked out from, a patch changes
the action's target and nothing else; applied to any other version of it, it fails. -/

namespace Blackboard.K8s

open Json Threads

theorem need_ok {j : Json} {ks : List String} {v : Json} (h : need j ks = .ok v) : j.path? ks = some v := by
  unfold need at h
  split at h
  · rename_i w hw
    exact hw.trans (congrArg some (Except.ok.inj h))
  · cases h

theorem getOpt_ok {j : Json} {k : String} {o : Option Json} (h : getOpt j k = .ok o) :
    (∃ ms, j = .obj ms) ∧ j.get? k = o := by
  cases j with
  | obj ms => exact ⟨⟨ms, rfl⟩, Except.ok.inj h⟩
  | _ => cases h

theorem bind_ok {α β : Type} {x : Except Err α} {f : α → Except Err β} {b : β} (h : (x >>= f) = .ok b) :
    ∃ a, x = .ok a ∧ f a = .ok b := by
  cases x with
  | ok a => exact ⟨a, rfl, h⟩
  | error e => cases h

/-- `~` and `/` are escaped one after the other; it comes to the same as both at once. -/
theorem escape_eq (key : String) : escape key = String.ofList (Pointer.escaped key.toList) := by
  have h : ∀ cs : List Char, ((cs.flatMap fun d => if d = '~' then ['~', '0'] else [d]).flatMap fun d =>
      if d = '/' then ['~', '1'] else [d]) = Pointer.escaped cs := by
    intro cs
    induction cs with
    | nil => rfl
    | cons c cs ih =>
      rw [List.flatMap_cons, List.flatMap_append, ih]
      by_cases ht : c = '~'
      · subst ht
        rfl
      · by_cases hs : c = '/'
        · subst hs
          rfl
        · simp [ht, hs, Pointer.escaped]
  simp only [escape, replaced, String.toList_ofList]
  exact congrArg String.ofList (h key.toList)

/-! What `popped` leaves. -/

/-- `new` is `old` without what the path leads to; the maps on the way stay. -/
def Dropped (path : List String) (old new : Json) : Prop :=
  new.path? path = none ∧ (∀ q, ¬ path <+: q → ¬ q <+: path → new.path? q = old.path? q) ∧
    ∀ q, q <+: path → q ≠ path → ((new.path? q).isSome ↔ (old.path? q).isSome)

/-- A path of which the first name is missing. -/
theorem dropped_self {path : List String} {j : Json} (h : j.path? path = none) : Dropped path j j :=
  ⟨h, fun _ _ _ => rfl, fun _ _ _ => Iff.rfl⟩

theorem popped_ok {field key : String} {t u : Json} (h : popped field key t = .ok u) :
    Dropped ["metadata", field, key] t u := by
  obtain ⟨o, ho, h⟩ := bind_ok h
  obtain ⟨⟨ms, rfl⟩, hget⟩ := getOpt_ok ho
  cases o with
  | none =>
    obtain rfl := Except.ok.inj h
    exact dropped_self (by rw [path?_cons, hget]; rfl)
  | some metadata =>
    obtain ⟨o', ho', h⟩ := bind_ok h
    obtain ⟨⟨ns, rfl⟩, hget'⟩ := getOpt_ok ho'
    cases o' with
    | none =>
      obtain rfl := Except.ok.inj h
      exact dropped_self (by rw [path?_cons, hget, Option.bind_some, path?_cons, hget']; rfl)
    | some l =>
      cases l with
      | obj ls =>
        obtain rfl := Except.ok.inj h
        have h1 : ((obj ms).modify ["metadata", field] fun m => m.erase key).get? "metadata" =
            some ((obj ns).modify [field] fun m => m.erase key) := by rw [get?_modify, if_pos rfl, hget]; rfl
        have h2 : ((obj ns).modify [field] fun m => m.erase key).get? field = some ((obj ls).erase key) := by
          rw [get?_modify, if_pos rfl, hget']; rfl
        refine ⟨?_, fun q hp hq => ?_, fun q hq hne => ?_⟩
        · rw [path?_cons, h1, Option.bind_some, path?_cons, h2, Option.bind_some, path?_cons, get?_erase, if_pos rfl]
          rfl
        · cases q with
          | nil => exact absurd List.nil_prefix hq
          | cons a q =>
            by_cases ha : a = "metadata"
            · subst ha
              rw [path?_cons, h1, path?_cons, hget, Option.bind_some, Option.bind_some]
              cases q with
              | nil => exact absurd ⟨[field, key], rfl⟩ hq
              | cons b q =>
                by_cases hb : b = field
                · subst hb
                  rw [path?_cons, h2, path?_cons, hget', Option.bind_some, Option.bind_some]
                  cases q with
                  | nil => exact absurd ⟨[key], rfl⟩ hq
                  | cons c q =>
                    have hc : c ≠ key := fun hc => hp (hc ▸ ⟨q, rfl⟩)
                    rw [path?_cons, path?_cons, get?_erase, if_neg hc]
                · rw [path?_cons, path?_cons, get?_modify, if_neg hb]
            · rw [path?_cons, path?_cons, get?_modify, if_neg ha]
        · -- the maps on the way are the two names before the last
          rcases q with _ | ⟨a, _ | ⟨b, _ | ⟨c, q⟩⟩⟩
          · simp
          · obtain rfl : a = "metadata" := by simpa using hq
            simp [path?_cons, h1, hget]
          · obtain ⟨rfl, rfl⟩ : a = "metadata" ∧ b = field := by simpa using hq
            simp only [path?_cons, h1, hget, Option.bind_some, h2, hget', path?_nil, Option.isSome_some]
          · obtain ⟨rfl, rfl, rfl, hq'⟩ : a = "metadata" ∧ b = field ∧ c = key ∧ q = [] := by simpa using hq
            exact absurd (by rw [hq']) hne
      | _ => cases h

/-! Which revision an undo goes back to. -/

/-- The ReplicaSet of the named revision, or of the highest one below the current. -/
structure Target (toRevision : Option ℕ) (dep : Json) (rss : List Json) (rs : Json) : Prop where
  mem : rs ∈ rss
  revision : ∃ metadata current rev, dep.path? ["metadata"] = some metadata ∧ K8s.revision metadata = .ok current ∧
    (∃ m, rs.path? ["metadata"] = some m ∧ K8s.revision m = .ok rev) ∧ rev ≠ current ∧
    match toRevision with
    | some n => rev = n
    | none => 0 < rev ∧ rev < current ∧ ∀ r ∈ rss, ∀ m, r.path? ["metadata"] = some m →
        ∀ k, K8s.revision m = .ok k → 0 < k → k < current → k ≤ rev

theorem byRevision_ok {rss : List Json} {revs : List (ℤ × Json)} (h : byRevision rss = .ok revs) :
    (∀ x ∈ revs, x.2 ∈ rss ∧ ∃ m, x.2.path? ["metadata"] = some m ∧ revision m = .ok x.1) ∧
      ∀ r ∈ rss, ∃ k, (k, r) ∈ revs := by
  induction rss generalizing revs with
  | nil =>
    obtain rfl := Except.ok.inj h
    exact ⟨nofun, nofun⟩
  | cons r rss ih =>
    rw [byRevision, List.mapM_cons] at h
    obtain ⟨x, hx, h⟩ := bind_ok h
    obtain ⟨xs, hxs, h⟩ := bind_ok h
    obtain rfl := Except.ok.inj h
    obtain ⟨m, hm, hx⟩ := bind_ok hx
    obtain ⟨k, hk, hx⟩ := bind_ok hx
    obtain rfl := Except.ok.inj hx
    obtain ⟨h1, h2⟩ := ih hxs
    refine ⟨fun y hy => ?_, fun q hq => ?_⟩
    · rcases List.mem_cons.mp hy with rfl | hy
      · exact ⟨List.mem_cons_self, m, need_ok hm, hk⟩
      · exact ⟨List.mem_cons_of_mem _ (h1 y hy).1, (h1 y hy).2⟩
    · rcases List.mem_cons.mp hq with rfl | hq
      · exact ⟨k, List.mem_cons_self⟩
      · obtain ⟨l, hl⟩ := h2 q hq
        exact ⟨l, List.mem_cons_of_mem _ hl⟩

theorem foldl_max (r : ℤ) (rs : List ℤ) : r ≤ rs.foldl max r ∧ (∀ x ∈ rs, x ≤ rs.foldl max r) ∧
    (rs.foldl max r = r ∨ rs.foldl max r ∈ rs) := by
  induction rs generalizing r with
  | nil => exact ⟨le_rfl, nofun, .inl rfl⟩
  | cons a rs ih =>
    obtain ⟨h1, h2, h3⟩ := ih (max r a)
    rw [List.foldl_cons]
    refine ⟨(le_max_left r a).trans h1, fun x hx => ?_, ?_⟩
    · rcases List.mem_cons.mp hx with rfl | hx
      · exact (le_max_right r x).trans h1
      · exact h2 x hx
    · rcases h3 with h3 | h3
      · rcases max_choice r a with h | h
        · exact .inl (h3.trans h)
        · exact .inr (List.mem_cons.mpr (.inl (h3.trans h)))
      · exact .inr (List.mem_cons_of_mem _ h3)

theorem target_ok {deployment : String} {toRevision : Option ℕ} {current rev : ℤ} {revs : List (ℤ × Json)}
    (h : target deployment toRevision current revs = .ok rev) :
    match toRevision with
    | some n => rev = n
    | none => 0 < rev ∧ rev < current ∧ ∀ x ∈ revs, 0 < x.1 → x.1 < current → x.1 ≤ rev := by
  cases toRevision with
  | some n => exact (Except.ok.inj h).symm
  | none =>
    simp only [target] at h
    cases hf : (revs.map (·.1)).filter fun r => 0 < r ∧ r < current with
    | nil => rw [hf] at h; cases h
    | cons r rs =>
      rw [hf] at h
      obtain rfl := Except.ok.inj h
      obtain ⟨h1, h2, h3⟩ := foldl_max r rs
      have hin : rs.foldl max r ∈ (revs.map (·.1)).filter fun r => 0 < r ∧ r < current := by
        rw [hf]
        exact List.mem_cons.mpr h3
      obtain ⟨-, hbounds⟩ := List.mem_filter.mp hin
      obtain ⟨hpos, hlt⟩ := of_decide_eq_true hbounds
      refine ⟨hpos, hlt, fun x hx h0 hc => ?_⟩
      have hmem : x.1 ∈ (revs.map (·.1)).filter fun r => 0 < r ∧ r < current :=
        List.mem_filter.mpr ⟨List.mem_map_of_mem hx, decide_eq_true ⟨h0, hc⟩⟩
      rw [hf] at hmem
      rcases List.mem_cons.mp hmem with hx1 | hx1
      · rw [hx1]
        exact h1
      · exact h2 _ hx1

theorem lookup_mem {revs : List (ℤ × Json)} {rev : ℤ} {rs : Json} (h : lookup revs rev = some rs) :
    (rev, rs) ∈ revs := by
  obtain ⟨x, hx, rfl⟩ := Option.map_eq_some_iff.mp h
  obtain ⟨hx, hrev⟩ := List.mem_filter.mp (List.mem_of_getLast? hx)
  exact (of_decide_eq_true hrev) ▸ hx

/-! What an undo prepares. -/

/-- The template of the revision an undo goes back to. -/
def targetTemplate (deployment : String) (toRevision : Option ℕ) (dep : Json) (rss : List Json) : Except Err Json := do
  let current ← revision (← need dep ["metadata"])
  let rss ← byRevision rss
  match lookup rss (← target deployment toRevision current rss) with
  | none => .error (.exception "KeyError")
  | some rs => need rs ["spec", "template"]

theorem undo_ok {deployment : String} {toRevision : Option ℕ} {dep : Json} {rss : List Json} {note : String}
    {p : Prepared} (h : undo deployment toRevision dep rss note = .ok p) :
    ∃ rs t template current, Target toRevision dep rss rs ∧ rs.path? ["spec", "template"] = some t ∧
      targetTemplate deployment toRevision dep rss = .ok t ∧ withoutHash t = .ok template ∧
      dep.path? ["spec", "template"] = some current ∧
      ((sameTemplate template current = .ok true ∧ p.noop = true) ∨
        sameTemplate template current = .ok false ∧ p.noop = false ∧
        ∃ v, dep.path? ["metadata", "resourceVersion"] = some v ∧
          p.ops = [op "test" "/metadata/resourceVersion" v, op "replace" "/spec/template" template,
            op "add" ("/metadata/annotations/" ++ escape CHANGE_CAUSE) (.str note)]) := by
  obtain ⟨metadata, hmeta, h⟩ := bind_ok h
  obtain ⟨current, hcur, h⟩ := bind_ok h
  obtain ⟨before, -, h⟩ := bind_ok h
  obtain ⟨revs, hrevs, h⟩ := bind_ok h
  obtain ⟨rev, hrev, h⟩ := bind_ok h
  obtain ⟨hall, hback⟩ := byRevision_ok hrevs
  cases hl : lookup revs rev with
  | none => rw [hl] at h; cases h
  | some rs =>
    rw [hl] at h
    dsimp only at h
    by_cases he : rev = current
    · rw [if_pos he] at h; cases h
    rw [if_neg he] at h
    obtain ⟨t, ht, h⟩ := bind_ok h
    obtain ⟨template, htemplate, h⟩ := bind_ok h
    obtain ⟨now, hnow, h⟩ := bind_ok h
    obtain ⟨same, hsame, h⟩ := bind_ok h
    obtain ⟨hrs, m, hm, hk⟩ := hall _ (lookup_mem hl)
    have htt : targetTemplate deployment toRevision dep rss = .ok t := by
      rw [targetTemplate, hmeta]
      simp only [bind, Except.bind, hcur, hrevs, hrev, hl]
      exact ht
    refine ⟨rs, t, template, now, ⟨hrs, metadata, current, rev, need_ok hmeta, hcur, ⟨m, hm, hk⟩, he, ?_⟩,
      need_ok ht, htt, htemplate, need_ok hnow, ?_⟩
    · have htarget := target_ok hrev
      cases toRevision with
      | some n => exact htarget
      | none =>
        refine ⟨htarget.1, htarget.2.1, fun r hr m' hm' k hk' h0 hc => ?_⟩
        obtain ⟨l, hl'⟩ := hback r hr
        obtain ⟨-, m'', hm'', hk''⟩ := hall _ hl'
        obtain rfl := Option.some.inj (hm'.symm.trans hm'')
        obtain rfl := Except.ok.inj (hk'.symm.trans hk'')
        exact htarget.2.2 _ hl' h0 hc
    · cases same with
      | true =>
        obtain rfl := Except.ok.inj h
        exact .inl ⟨hsame, rfl⟩
      | false =>
        obtain ⟨v, hv, h⟩ := bind_ok h
        obtain rfl := Except.ok.inj h
        exact .inr ⟨hsame, rfl, v, need_ok hv, rfl⟩

/-! The operations, read as a JSON patch. -/

theorem parse_version : Pointer.parse "/metadata/resourceVersion" = some ["metadata", "resourceVersion"] := by decide

theorem parse_template : Pointer.parse "/spec/template" = some ["spec", "template"] := by decide

theorem parse_replicas : Pointer.parse "/spec/replicas" = some ["spec", "replicas"] := by decide

theorem parse_annotations :
    Pointer.parse "/spec/template/metadata/annotations" = some ["spec", "template", "metadata", "annotations"] := by
    decide

theorem parse_metadataAnnotations : Pointer.parse "/metadata/annotations" = some ["metadata", "annotations"] := by
  decide

theorem parse_note (key : String) :
    Pointer.parse ("/metadata/annotations/" ++ escape key) = some ["metadata", "annotations", key] := by
  rw [escape_eq]
  exact Pointer.parse_append parse_metadataAnnotations (by decide) key

theorem parse_annotation_key (key : String) :
    Pointer.parse ("/spec/template/metadata/annotations/" ++ escape key) =
      some ["spec", "template", "metadata", "annotations", key] := by
  rw [escape_eq]
  exact Pointer.parse_append parse_annotations (by decide) key

theorem patched_cons {o : Json} {os : List Json} {q : PatchOp} (h : PatchOp.ofJson? o = some q) (j : Json) :
    patched (o :: os) j = (q.apply j).bind (patched os) := by
  rw [patched, h, Option.bind_some]

theorem ofJson?_test {path : String} {p : List String} (v : Json) (h : Pointer.parse path = some p) :
    PatchOp.ofJson? (op "test" path v) = some (.test p v) := by
  simp [PatchOp.ofJson?, op, member?_cons, h]

theorem ofJson?_add {path : String} {p : List String} (v : Json) (h : Pointer.parse path = some p) :
    PatchOp.ofJson? (op "add" path v) = some (.add p v) := by
  simp [PatchOp.ofJson?, op, member?_cons, h]

theorem ofJson?_replace {path : String} {p : List String} (v : Json) (h : Pointer.parse path = some p) :
    PatchOp.ofJson? (op "replace" path v) = some (.replace p v) := by
  simp [PatchOp.ofJson?, op, member?_cons, h]

/-- No name on the way is an array index. -/
theorem named_all : ∀ k ∈ ["metadata", "resourceVersion", "spec", "template", "annotations", "replicas", CHANGE_CAUSE,
    RESTARTED_AT], Named k := by decide

theorem guard_passes {version : String} {j : Json} {os : List Json}
    (h : j.path? ["metadata", "resourceVersion"] = some (.str version)) :
    patched (op "test" "/metadata/resourceVersion" (.str version) :: os) j = patched os j := by
  rw [patched_cons (ofJson?_test _ parse_version), apply_test (fun k hk => named_all k (by simp_all; tauto)) h]
  simp [same]

theorem guard_fails {version : String} {j : Json} {os : List Json}
    (h : j.path? ["metadata", "resourceVersion"] ≠ some (.str version)) :
    patched (op "test" "/metadata/resourceVersion" (.str version) :: os) j = none := by
  have hn : ∀ k ∈ ["metadata", "resourceVersion"], Named k := fun k hk => named_all k (by simp_all; tauto)
  rw [patched_cons (ofJson?_test _ parse_version)]
  cases hj : j.path? ["metadata", "resourceVersion"] with
  | none => rw [apply_test_none hn hj, Option.bind_none]
  | some w =>
    have hw : w.same (.str version) = false := by
      cases w with
      | str s =>
        have hs : s ≠ version := fun hs => h (hs ▸ hj)
        simp [same, hs]
      | _ => rfl
    rw [apply_test hn hj, hw]
    rfl

/-! The other two actions. -/

theorem prepared_restart {a : Action} {dep : Json} {now : String} {p : Prepared} (ha : a.change = .restartDeployment)
    (h : prepared a dep now = .ok p) :
    ∃ v metadata annotations, dep.path? ["metadata", "resourceVersion"] = some v ∧
      dep.path? ["spec", "template", "metadata"] = some (.obj metadata) ∧ member? metadata "annotations" = annotations ∧
      p.ops = [op "test" "/metadata/resourceVersion" v,
        match annotations with
        | none | some .null => op "add" "/spec/template/metadata/annotations" (.obj [(RESTARTED_AT, .str now)])
        | some _ => op "add" ("/spec/template/metadata/annotations/" ++ escape RESTARTED_AT) (.str now)] := by
  obtain ⟨before, -, h⟩ := bind_ok h
  obtain ⟨v, hv, h⟩ := bind_ok h
  simp only [ha] at h
  obtain ⟨metadata, hm, h⟩ := bind_ok h
  obtain ⟨annotations, hann, h⟩ := bind_ok h
  obtain ⟨⟨ms, rfl⟩, hget⟩ := getOpt_ok hann
  obtain rfl := Except.ok.inj h
  refine ⟨v, ms, annotations, need_ok hv, need_ok hm, hget, ?_⟩
  subst hget
  rfl

theorem prepared_scale {a : Action} {dep : Json} {now : String} {replicas : ℕ} {p : Prepared}
    (ha : a.change = .scaleDeployment replicas) (h : prepared a dep now = .ok p) (hn : p.noop = false) :
    ∃ v, dep.path? ["metadata", "resourceVersion"] = some v ∧
      p.ops = [op "test" "/metadata/resourceVersion" v, op "replace" "/spec/replicas" (.num replicas)] := by
  obtain ⟨before, -, h⟩ := bind_ok h
  obtain ⟨v, hv, h⟩ := bind_ok h
  simp only [ha] at h
  obtain ⟨spec, -, h⟩ := bind_ok h
  obtain ⟨o, -, h⟩ := bind_ok h
  split_ifs at h
  · obtain rfl := Except.ok.inj h
    cases hn
  · obtain rfl := Except.ok.inj h
    exact ⟨v, need_ok hv, rfl⟩

/-! The Deployment with the patch in it. -/

/-- A Deployment as the API returns it: its version is a text, and annotations are a map. -/
structure Deployment where
  doc : Json
  version : String
  versioned : doc.path? ["metadata", "resourceVersion"] = some (.str version)
  annotated : ∀ v, doc.path? ["spec", "template", "metadata", "annotations"] = some v → v = .null ∨ v.isObj = true

/-- What the executor works out from what it read. -/
def Prepares (a : Action) (dep : Json) (rss : List Json) (note now : String) (p : Prepared) : Prop :=
  match a.change with
  | .rolloutUndo r => undo a.deployment r dep rss note = .ok p
  | _ => prepared a dep now = .ok p

/-- The values an action sets. -/
def targets (a : Action) (template : Json) (note now : String) : List (List String × Json) :=
  match a.change with
  | .rolloutUndo _ => [(["spec", "template"], template), (["metadata", "annotations", CHANGE_CAUSE], .str note)]
  | .restartDeployment => [(["spec", "template", "metadata", "annotations", RESTARTED_AT], .str now)]
  | .scaleDeployment n => [(["spec", "replicas"], .num n)]

/-- `new` has these values, and is `old` everywhere else. -/
def Changed (ts : List (List String × Json)) (old new : Json) : Prop :=
  (∀ t ∈ ts, new.path? t.1 = some t.2) ∧
    ∀ q, (∀ t ∈ ts, ¬ t.1 <+: q ∧ ¬ q <+: t.1) → new.path? q = old.path? q

/-- The template an undo goes back to, without the label the ReplicaSet controller added. -/
def TemplateOf (a : Action) (dep : Json) (rss : List Json) (template : Json) : Prop :=
  ∀ r, a.change = .rolloutUndo r → ∃ rs t, Target r dep rss rs ∧ rs.path? ["spec", "template"] = some t ∧
    Dropped ["metadata", "labels", POD_TEMPLATE_HASH] t template

/-- The maps and fields the patch needs are there. -/
def Fits (a : Action) (dep : Json) : Prop :=
  match a.change with
  | .rolloutUndo _ => (dep.path? ["metadata", "annotations"]).any isObj = true
  | .restartDeployment => True
  | .scaleDeployment _ => (dep.path? ["spec", "replicas"]).isSome = true

theorem changed_put (v : Json) (ks : List String) (j : Json) : Changed [(ks, v)] j (put v ks j) := by
  refine ⟨fun t ht => ?_, fun q hq => ?_⟩
  · obtain rfl := List.mem_singleton.mp ht
    have h := path?_put_self v ks [] j
    rwa [List.append_nil, path?_nil] at h
  · have h := hq (ks, v) List.mem_cons_self
    exact path?_put_of_ne v j h.1 h.2

/-- One more value, beside those that are set already. -/
theorem Changed.put {ts : List (List String × Json)} {old new : Json} (h : Changed ts old new) (v : Json)
    {ks : List String} (hks : ∀ t ∈ ts, ¬ ks <+: t.1 ∧ ¬ t.1 <+: ks) :
    Changed (ts ++ [(ks, v)]) old (put v ks new) := by
  obtain ⟨hset, hframe⟩ := changed_put v ks new
  refine ⟨fun t ht => ?_, fun q hq => ?_⟩
  · rcases List.mem_append.mp ht with ht | ht
    · rw [hframe t.1 fun u hu => by rw [List.mem_singleton.mp hu]; exact hks t ht]
      exact h.1 t ht
    · exact hset t ht
  · rw [hframe q fun u hu => hq u (List.mem_append_right _ hu)]
    exact h.2 q fun t ht => hq t (List.mem_append_left _ ht)

/-- Setting a whole new map with one member is setting that member. -/
theorem changed_put_map (k : String) (v : Json) (ks : List String) (j : Json)
    (h : j.path? ks = none ∨ j.path? ks = some .null) : Changed [(ks ++ [k], v)] j (Json.put (.obj [(k, v)]) ks j) := by
  refine ⟨fun t ht => ?_, fun q hq => ?_⟩
  · obtain rfl := List.mem_singleton.mp ht
    rw [path?_put_self]
    simp [path?_cons, member?_cons]
  · obtain ⟨h1, h2⟩ := hq _ List.mem_cons_self
    by_cases hp : ks <+: q
    · obtain ⟨ls, rfl⟩ := hp
      rw [path?_put_self, path?_append]
      cases ls with
      | nil => exact absurd ⟨[k], by rw [List.append_nil]⟩ h2
      | cons l ls =>
        have hl : k ≠ l := fun hl => h1 (hl ▸ ⟨ls, by rw [List.append_assoc]; rfl⟩)
        have hold : ((j.path? ks).bind fun w => w.path? (l :: ls)) = none := by
          rcases h with h | h <;> rw [h] <;> rfl
        rw [hold, path?_cons, get?_obj, member?_cons, if_neg hl]
        rfl
    · exact path?_put_of_ne _ j hp fun hqk => h2 (hqk.trans (List.prefix_append ks [k]))

theorem undo_changes (note : String) (template : Json) {version : String} {dep current : Json}
    (hv : dep.path? ["metadata", "resourceVersion"] = some (.str version))
    (hcurrent : dep.path? ["spec", "template"] = some current) :
    patched [op "test" "/metadata/resourceVersion" (.str version), op "replace" "/spec/template" template,
        op "add" ("/metadata/annotations/" ++ escape CHANGE_CAUSE) (.str note)] dep =
      if (dep.path? ["metadata", "annotations"]).any isObj then
        some (Json.put (.str note) ["metadata", "annotations", CHANGE_CAUSE]
          (Json.put template ["spec", "template"] dep))
      else none := by
  have hreplace := apply_replace (p := ["spec"]) (k := "template") (v := template) (j := dep) (by decide) (by decide)
  have hadd := apply_add (p := ["metadata", "annotations"]) (k := CHANGE_CAUSE) (v := .str note)
    (j := Json.put template ["spec", "template"] dep) (by decide) (by decide)
  rw [path?_put_of_ne _ _ (by decide) (by decide)] at hadd
  have hset : (dep.path? (["spec"] ++ ["template"])).isSome = true := by
    rw [show ["spec"] ++ ["template"] = ["spec", "template"] from rfl, hcurrent]; rfl
  rw [guard_passes hv, patched_cons (ofJson?_replace _ parse_template)]
  rw [if_pos hset] at hreplace
  rw [show ["spec", "template"] = ["spec"] ++ ["template"] from rfl, hreplace, Option.bind_some,
    patched_cons (ofJson?_add _ (parse_note CHANGE_CAUSE))]
  rw [show ["metadata", "annotations", CHANGE_CAUSE] = ["metadata", "annotations"] ++ [CHANGE_CAUSE] from rfl]
  refine (congrArg (Option.bind · (patched [])) hadd).trans ?_
  split_ifs <;> rfl

theorem scale_changes {version : String} {dep : Json} (n : ℤ)
    (hv : dep.path? ["metadata", "resourceVersion"] = some (.str version)) :
    patched [op "test" "/metadata/resourceVersion" (.str version), op "replace" "/spec/replicas" (.num n)] dep =
      if (dep.path? ["spec", "replicas"]).isSome then some (Json.put (.num n) ["spec", "replicas"] dep) else none := by
  have hreplace := apply_replace (p := ["spec"]) (k := "replicas") (v := .num n) (j := dep) (by decide) (by decide)
  rw [guard_passes hv, patched_cons (ofJson?_replace _ parse_replicas)]
  refine (congrArg (Option.bind · (patched [])) hreplace).trans ?_
  rw [show ["spec"] ++ ["replicas"] = ["spec", "replicas"] from rfl]
  split_ifs <;> rfl

theorem any_isObj (ms : List (String × Json)) : (some (Json.obj ms)).any isObj = true := rfl

/-- A restart adds the annotation, or a map with it where there is none. -/
theorem restart_changes (d : Deployment) (now : String) {metadata : List (String × Json)} {annotations : Option Json}
    (hm : d.doc.path? ["spec", "template", "metadata"] = some (.obj metadata))
    (hann : member? metadata "annotations" = annotations) :
    ∃ new, patched [op "test" "/metadata/resourceVersion" (.str d.version),
        match annotations with
        | none | some .null => op "add" "/spec/template/metadata/annotations" (.obj [(RESTARTED_AT, .str now)])
        | some _ => op "add" ("/spec/template/metadata/annotations/" ++ escape RESTARTED_AT) (.str now)] d.doc =
          some new ∧
      Changed [(["spec", "template", "metadata", "annotations", RESTARTED_AT], .str now)] d.doc new := by
  have hpath : d.doc.path? ["spec", "template", "metadata", "annotations"] = annotations := by
    rw [show ["spec", "template", "metadata", "annotations"] = ["spec", "template", "metadata"] ++
      ["annotations"] from rfl, path?_append, hm, Option.bind_some, path?_cons, get?_obj, hann]
    cases annotations <;> rfl
  have hmap : (d.doc.path? ["spec", "template", "metadata", "annotations"] = none ∨
      d.doc.path? ["spec", "template", "metadata", "annotations"] = some .null) →
      ∃ new, patched [op "test" "/metadata/resourceVersion" (.str d.version),
        op "add" "/spec/template/metadata/annotations" (.obj [(RESTARTED_AT, .str now)])] d.doc = some new ∧
      Changed [(["spec", "template", "metadata", "annotations", RESTARTED_AT], .str now)] d.doc new := fun hnone => by
    have hadd := apply_add (p := ["spec", "template", "metadata"]) (k := "annotations")
      (v := .obj [(RESTARTED_AT, .str now)]) (j := d.doc) (by decide) (by decide)
    rw [hm, if_pos (any_isObj metadata)] at hadd
    refine ⟨_, ?_, changed_put_map RESTARTED_AT (.str now) ["spec", "template", "metadata", "annotations"] d.doc hnone⟩
    rw [guard_passes d.versioned, patched_cons (ofJson?_add _ parse_annotations)]
    exact congrArg (Option.bind · (patched [])) hadd
  rcases annotations with _ | v
  · exact hmap (.inl hpath)
  · rcases d.annotated v hpath with rfl | hobj
    · exact hmap (.inr hpath)
    · obtain ⟨ms, rfl⟩ : ∃ ms, v = .obj ms := by
        cases v with
        | obj ms => exact ⟨ms, rfl⟩
        | _ => cases hobj
      have hadd := apply_add (p := ["spec", "template", "metadata", "annotations"]) (k := RESTARTED_AT)
        (v := .str now) (j := d.doc) (by decide) (by decide)
      rw [hpath, if_pos (any_isObj ms)] at hadd
      refine ⟨_, ?_, changed_put (.str now) ["spec", "template", "metadata", "annotations", RESTARTED_AT] d.doc⟩
      rw [guard_passes d.versioned, patched_cons (ofJson?_add _ (parse_annotation_key RESTARTED_AT))]
      exact congrArg (Option.bind · (patched [])) hadd

/-- Whatever the executor prepares: on the document it was prepared from the patch changes exactly
the action's target or fails as a whole, and on any other version it fails. -/
theorem patch_exact (a : Action) (d : Deployment) (rss : List Json) (note now : String) (p : Prepared)
    (hp : Prepares a d.doc rss note now p) (hn : p.noop = false) :
    ∃ template, TemplateOf a d.doc rss template ∧
      (∀ new, patched p.ops d.doc = some new → Changed (targets a template note now) d.doc new) ∧
      (Fits a d.doc → (patched p.ops d.doc).isSome = true) ∧
      ∀ other : Json, other.path? ["metadata", "resourceVersion"] ≠ some (.str d.version) →
        patched p.ops other = none := by
  unfold Prepares at hp
  cases hc : a.change with
  | rolloutUndo r =>
    simp only [hc] at hp
    obtain ⟨rs, t, template, current, htarget, ht, -, htemplate, hcurrent, h⟩ := undo_ok hp
    rcases h with ⟨-, hnoop⟩ | ⟨-, -, v, hv, hops⟩
    · rw [hnoop] at hn; cases hn
    obtain rfl : v = .str d.version := Option.some.inj (hv.symm.trans d.versioned)
    have hpatched := undo_changes note template hv hcurrent
    simp only [targets, Fits, hc, hops, hpatched]
    refine ⟨template, fun r' hr' => ?_, fun new hnew => ?_, fun hfits => ?_, fun other ho => guard_fails ho⟩
    · obtain rfl : r = r' := by rw [hc] at hr'; exact Change.rolloutUndo.inj hr'
      exact ⟨rs, t, htarget, ht, popped_ok htemplate⟩
    · split_ifs at hnew
      obtain rfl := Option.some.inj hnew
      exact (changed_put template ["spec", "template"] d.doc).put (.str note) (by simp)
    · rw [if_pos hfits]; rfl
  | restartDeployment =>
    simp only [hc] at hp
    obtain ⟨v, metadata, annotations, hv, hm, hann, hops⟩ := prepared_restart hc hp
    obtain rfl : v = .str d.version := Option.some.inj (hv.symm.trans d.versioned)
    obtain ⟨new, hnew, hchanged⟩ := restart_changes d now hm hann
    simp only [targets, Fits, hc, hops]
    refine ⟨.null, fun r' hr' => ?_, fun new' hnew' => ?_, fun _ => ?_, fun other ho => guard_fails ho⟩
    · rw [hc] at hr'; cases hr'
    · obtain rfl := Option.some.inj (hnew.symm.trans hnew')
      exact hchanged
    · exact Option.isSome_iff_exists.mpr ⟨new, hnew⟩
  | scaleDeployment n =>
    simp only [hc] at hp
    obtain ⟨v, hv, hops⟩ := prepared_scale hc hp hn
    obtain rfl : v = .str d.version := Option.some.inj (hv.symm.trans d.versioned)
    have hpatched := scale_changes n hv
    simp only [targets, Fits, hc, hops, hpatched]
    refine ⟨.null, fun r' hr' => ?_, fun new hnew => ?_, fun hfits => ?_, fun other ho => guard_fails ho⟩
    · rw [hc] at hr'; cases hr'
    · split_ifs at hnew
      obtain rfl := Option.some.inj hnew
      exact changed_put (.num n) ["spec", "replicas"] d.doc
    · rw [if_pos hfits]; rfl

def sampleTemplate (image : String) (labels : List (String × Json)) : Json :=
  .obj [("metadata", .obj [("labels", .obj labels)]),
    ("spec", .obj [("containers", .arr [.obj [("name", .str "server"), ("image", .str image)]])])]

/-- The second release of the Deployment `checkout`. -/
def sampleDeployment : Deployment where
  doc := .obj [("metadata", .obj [("name", .str "checkout"), ("resourceVersion", .str "981"), ("uid", .str "d-1"),
      ("annotations", .obj [(REVISION, .str "2")])]),
    ("spec", .obj [("replicas", .num 1), ("template", sampleTemplate "checkout:2" [("app", .str "checkout")])])]
  version := "981"
  versioned := rfl
  annotated := fun v hv => by cases hv

def sampleReplicaset (revision image : String) : Json :=
  .obj [("metadata", .obj [("annotations", .obj [(REVISION, .str revision)])]),
    ("spec", .obj [("template", sampleTemplate image [("app", .str "checkout"), (POD_TEMPLATE_HASH, .str "7d9f")])])]

def sampleAction : Action :=
  { deployment := "checkout", evidenceIds := ["ev_1"], reason := "", change := .rolloutUndo none }

def samplePrepared : Prepared :=
  match undo "checkout" none sampleDeployment.doc [sampleReplicaset "1" "checkout:1",
    sampleReplicaset "2" "checkout:2"] "plan" with
  | .ok p => p
  | .error _ => ⟨"", [], .null, "", true, 0, 0⟩

theorem patch_exact_undo :
    ∃ template, TemplateOf sampleAction sampleDeployment.doc
        [sampleReplicaset "1" "checkout:1", sampleReplicaset "2" "checkout:2"] template ∧
      (∀ new, patched samplePrepared.ops sampleDeployment.doc = some new →
        Changed (targets sampleAction template "plan" "") sampleDeployment.doc new) ∧
      (Fits sampleAction sampleDeployment.doc → (patched samplePrepared.ops sampleDeployment.doc).isSome = true) ∧
      ∀ other : Json, other.path? ["metadata", "resourceVersion"] ≠ some (.str sampleDeployment.version) →
        patched samplePrepared.ops other = none :=
  patch_exact sampleAction sampleDeployment [sampleReplicaset "1" "checkout:1",
    sampleReplicaset "2" "checkout:2"] "plan" ""
    samplePrepared rfl rfl

end Blackboard.K8s
