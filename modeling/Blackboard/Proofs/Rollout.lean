import Blackboard.Spec.Rollout

/-! Whether the summaries of the Kubernetes tools depend on the order of the members of an answer. -/

namespace Json

theorem canon_obj_congr {ms ns : List (String × Json)} (h : canonMembers ms = canonMembers ns) :
    (obj ms).canon = (obj ns).canon := by
  rw [canon, canon, h]

end Json

namespace Blackboard.Tools.Kube

open Json

/-! Every reader gives of the canonical form what it gives of the value, in canonical form. -/

theorem child_canon (j : Json) (k : String) : child j.canon k = (child j k).map canon := by
  unfold child
  rw [get?_canon]
  rcases j.get? k with _ | v
  · rfl
  · cases v <;> rfl

theorem object_canon (j : Json) (k : String) : object j.canon k = (object j k).map canon := by
  unfold object
  rw [get?_canon]
  rcases j.get? k with _ | v
  · rfl
  · cases v <;> rfl

theorem items_canon (j : Json) (k : String) : items j.canon k = (items j k).map (List.map canon) := by
  unfold items
  rw [get?_canon]
  rcases j.get? k with _ | v
  · rfl
  · cases v with
    | arr xs => exact congrArg some (canonAll_eq xs)
    | _ => rfl

theorem nullable_canon (j : Json) (k : String) : nullable j.canon k = nullable j k := by
  unfold nullable
  rw [get?_canon]
  rcases j.get? k with _ | v
  · rfl
  · cases v <;> rfl

theorem text_canon (j : Json) (k : String) : text j.canon k = text j k := by
  unfold text
  rw [get?_canon]
  rcases j.get? k with _ | v
  · rfl
  · cases v <;> rfl

theorem count_canon (j : Json) (k : String) : count j.canon k = count j k := by
  unfold count
  rw [get?_canon]
  rcases j.get? k with _ | v
  · rfl
  · cases v <;> rfl

theorem mapM_canon {X : Type} (f : Json → Option X) (g : X → X) (h : ∀ j : Json, f j.canon = (f j).map g)
    (xs : List Json) :
    (xs.map canon).mapM f = (xs.mapM f).map (List.map g) := by
  induction xs with
  | nil => rfl
  | cons x xs ih =>
    rw [List.map_cons, List.mapM_cons, List.mapM_cons, h, ih]
    rcases f x with _ | y
    · rfl
    · rcases xs.mapM f with _ | ys <;> rfl

theorem Event.ofJson_canon (e : Json) : Event.ofJson e.canon = Event.ofJson e := by
  simp only [Event.ofJson, object_canon, text_canon, count_canon, nullable_canon, Option.bind_map, Function.comp_def]

/-! Decoded, an answer still holds values whose members have an order. -/

def EnvVar.canon : EnvVar → EnvVar
  | .plain name value => .plain name value
  | .source name keys => .source name (keys.insertionSort fun a b => a ≤ b)

def Container.canon (c : Container) : Container :=
  { c with printed := c.printed.map (Prod.map id Json.canon), env := c.env.map EnvVar.canon }

def ReplicaSet.canon (rs : ReplicaSet) : ReplicaSet :=
  { rs with
    created := rs.created.canon
    changeCause := rs.changeCause.canon
    replicas := rs.replicas.canon
    annotations := rs.annotations.insertionSort fun a b => a.1 ≤ b.1
    containers := rs.containers.map Container.canon }

def Deployment.canon (d : Deployment) : Deployment :=
  { d with
    name := d.name.canon
    changeCause := d.changeCause.canon
    generation := d.generation.canon
    replicas := d.replicas.map (Prod.map id Json.canon)
    replicasets := d.replicasets.map ReplicaSet.canon }

theorem members_canon (j : Json) :
    j.canon.members = (canonMembers j.members).insertionSort fun a b => a.1 ≤ b.1 := by cases j <;> rfl

theorem EnvVar.ofJson_canon (e : Json) : EnvVar.ofJson e.canon = (EnvVar.ofJson e).map EnvVar.canon := by
  have hkeys : ∀ src : Json, src.canon.members.map Prod.fst =
      (src.members.map Prod.fst).insertionSort fun a b => a ≤ b := by
    intro src
    rw [members_canon, List.map_insertionSort (fun a b : String × Json => a.1 ≤ b.1)
      (fun a b : String => a ≤ b) Prod.fst _
      fun _ _ _ _ => Iff.rfl, canonMembers_eq, List.map_map]
    rfl
  simp only [EnvVar.ofJson, get?_canon, object_canon, Option.bind_map, Function.comp_def, asStr?_canon, Option.map_bind]
  congr 1
  funext name
  rcases e.get? "value" with _ | v
  · simp only [Option.map_none, Option.map_map, Function.comp_def, hkeys, EnvVar.canon]
  · simp only [Option.map_some, asStr?_canon, Option.map_map, Function.comp_def, EnvVar.canon]

theorem bind_canon {X X' Y Z : Type} {g : X → X'} {h : Y → Z} {o : Option X} {o' : Option X'} {f : X → Option Y}
    {f' : X' → Option Z} (ho : o' = o.map g) (hf : ∀ x, f' (g x) = (f x).map h) : o'.bind f' = (o.bind f).map h := by
  subst ho
  rcases o with _ | x
  · rfl
  · exact hf x

theorem same_canon {X : Type} {o o' : Option X} (h : o' = o) : o' = o.map id := by rw [h, Option.map_id, id]

theorem text_member_canon (j : Json) (k : String) :
    (j.canon.get? k).bind Json.asStr? = (j.get? k).bind Json.asStr? := by
  rw [get?_canon, Option.bind_map]
  exact congrArg _ (funext asStr?_canon)

theorem Container.ofJson_canon (c : Json) : Container.ofJson c.canon = (Container.ofJson c).map Container.canon := by
  have hprinted : ∀ fields : List String, fields.filterMap (fun field => (c.canon.get? field).map (field, ·)) =
      (fields.filterMap fun field => (c.get? field).map (field, ·)).map (Prod.map id Json.canon) := by
    intro fields
    simp only [List.map_filterMap, get?_canon, Option.map_map, Function.comp_def, Prod.map_apply, id_eq]
  have henv : ((items c.canon "env").bind fun es => es.mapM EnvVar.ofJson) =
      ((items c "env").bind fun es => es.mapM EnvVar.ofJson).map (List.map EnvVar.canon) :=
    bind_canon (items_canon c "env") (mapM_canon EnvVar.ofJson EnvVar.canon EnvVar.ofJson_canon)
  refine bind_canon (same_canon (text_member_canon c "name")) fun name => ?_
  refine bind_canon (same_canon (nullable_canon c "image")) fun image => ?_
  rw [henv, hprinted, Option.map_map, Option.map_map]
  rfl

theorem mapM_orderedInsert {X Y : Type} (f : X → Option Y) (p : X → String) (q : Y → String)
    (h : ∀ x y, f x = some y → q y = p x) (x : X) (xs : List X) :
    (xs.orderedInsert (fun a b => p a ≤ p b) x).mapM f =
      (f x).bind fun y => (xs.mapM f).map (List.orderedInsert (fun a b => q a ≤ q b) y) := by
  induction xs with
  | nil =>
    rw [List.orderedInsert_nil, List.mapM_cons]
    rcases f x with _ | y <;> rfl
  | cons z xs ih =>
    rw [List.orderedInsert_cons]
    split_ifs with hle
    · rw [List.mapM_cons]
      rcases hx : f x with _ | y
      · rfl
      · rw [List.mapM_cons]
        rcases hz : f z with _ | w
        · rfl
        · rcases xs.mapM f with _ | ys
          · rfl
          · have : q y ≤ q w := by rwa [h x y hx, h z w hz]
            simp [this]
    · rw [List.mapM_cons, List.mapM_cons, ih]
      rcases hx : f x with _ | y
      · rcases f z with _ | w <;> rfl
      · rcases hz : f z with _ | w
        · rfl
        · rcases xs.mapM f with _ | ys
          · rfl
          · have : ¬ q y ≤ q w := by rwa [h x y hx, h z w hz]
            simp [this]

theorem mapM_sort {X Y : Type} (f : X → Option Y) (p : X → String) (q : Y → String)
    (h : ∀ x y, f x = some y → q y = p x) (xs : List X) :
    (xs.insertionSort fun a b => p a ≤ p b).mapM f = (xs.mapM f).map (List.insertionSort fun a b => q a ≤ q b) := by
  induction xs with
  | nil => rfl
  | cons x xs ih =>
    rw [List.insertionSort_cons, mapM_orderedInsert f p q h, ih, List.mapM_cons]
    rcases f x with _ | y
    · rfl
    · rcases xs.mapM f with _ | ys <;> rfl

theorem texts_canon (own : Json) :
    (own.canon.members.mapM fun m : String × Json => m.2.asStr?.map fun v => (m.1, v)) =
      (own.members.mapM fun m : String × Json => m.2.asStr?.map fun v => (m.1, v)).map
        (List.insertionSort fun a b => a.1 ≤ b.1) := by
  rw [members_canon, mapM_sort _ Prod.fst Prod.fst, canonMembers_eq, List.mapM_map]
  · simp only [Function.comp_def, asStr?_canon]
  · intro m t h
    obtain ⟨v, -, rfl⟩ := Option.map_eq_some_iff.mp h
    rfl

theorem getD_canon (o : Option Json) (v : Json) : (o.map Json.canon).getD v.canon = (o.getD v).canon := by
  cases o <;> rfl

theorem revisionOf_canon (j : Json) : revisionOf j.canon = revisionOf j := by
  unfold revisionOf
  rw [get?_canon]
  rcases j.get? REVISION with _ | v
  · rfl
  · exact congrArg (Option.bind · _) (asStr?_canon v)

theorem ReplicaSet.ofJson_canon (rs : Json) :
    ReplicaSet.ofJson rs.canon = (ReplicaSet.ofJson rs).map ReplicaSet.canon := by
  refine bind_canon (child_canon rs "metadata") fun metadata => ?_
  refine bind_canon (object_canon metadata "annotations") fun annotations => ?_
  refine bind_canon (same_canon (revisionOf_canon annotations)) fun revision => ?_
  refine bind_canon (object_canon rs "status") fun status => ?_
  refine bind_canon (bind_canon (child_canon rs "spec") fun spec => child_canon spec "template") fun template => ?_
  refine bind_canon (child_canon template "spec") fun pod => ?_
  refine bind_canon (bind_canon (child_canon template "metadata") fun m => object_canon m "annotations") fun own => ?_
  refine bind_canon (texts_canon own) fun texts => ?_
  refine bind_canon (items_canon pod "initContainers") fun inits => ?_
  refine bind_canon (items_canon pod "containers") fun mains => ?_
  rw [← List.map_append, mapM_canon Container.ofJson Container.canon Container.ofJson_canon, Option.map_map,
    Option.map_map]
  refine congrArg (Option.map · _) (funext fun containers => ?_)
  simp only [Function.comp_apply, ReplicaSet.canon, get?_canon, id_eq, ReplicaSet.mk.injEq, true_and, and_true]
  exact ⟨getD_canon _ .null, getD_canon _ .null, getD_canon _ (.num 0)⟩

theorem Condition.ofJson_canon (c : Json) : Condition.ofJson c.canon = Condition.ofJson c := by
  simp only [Condition.ofJson, text_canon]

theorem Deployment.ofJson_canon (raw : Json) :
    Deployment.ofJson raw.canon = (Deployment.ofJson raw).map Deployment.canon := by
  refine bind_canon (child_canon raw "deployment") fun dep => ?_
  refine bind_canon (child_canon dep "metadata") fun metadata => ?_
  refine bind_canon (get?_canon metadata "name") fun name => ?_
  refine bind_canon (object_canon metadata "annotations") fun annotations => ?_
  refine bind_canon (object_canon dep "status") fun status => ?_
  refine bind_canon (g := id) ?_ fun conditions => ?_
  · exact bind_canon (items_canon status "conditions") fun cs => by
      rw [mapM_canon Condition.ofJson id fun c => same_canon (Condition.ofJson_canon c), List.map_id_fun]
  · rw [bind_canon (h := List.map ReplicaSet.canon) (items_canon raw "replicasets")
      (mapM_canon _ _ ReplicaSet.ofJson_canon), Option.map_map, Option.map_map]
    refine congrArg (Option.map · _) (funext fun replicasets => ?_)
    simp only [Function.comp_apply, Deployment.canon, get?_canon, id_eq, Deployment.mk.injEq, true_and, and_true,
      List.map_map]
    refine ⟨getD_canon _ .null, getD_canon _ .null, List.map_congr_left fun k _ => ?_⟩
    exact congrArg (k, ·) (getD_canon _ (.num 0))

/-! The events. -/

theorem summarizeEvents_canon (raw : Json) :
    (summarizeEvents raw.canon).map Json.canon = (summarizeEvents raw).map Json.canon := by
  have hitems : ((items raw.canon "items").bind fun es => es.mapM Event.ofJson) =
      (items raw "items").bind fun es => es.mapM Event.ofJson := by
    rw [items_canon, Option.bind_map]
    refine congrArg _ (funext fun es => ?_)
    rw [Function.comp_apply, mapM_canon Event.ofJson id fun e => same_canon (Event.ofJson_canon e), List.map_id_fun,
      Option.map_id, id]
  unfold summarizeEvents
  rw [get?_canon, hitems]
  rcases raw.get? "namespace" with _ | ns
  · rfl
  · rw [Option.map_some, Option.bind_some, Option.bind_some, Option.map_map, Option.map_map]
    refine congrArg (Option.map · _) (funext fun es => ?_)
    exact canon_obj_congr (congrArg₂ List.cons (congrArg (Prod.mk "namespace") (canon_canon ns)) rfl)

/-! The history. -/

theorem imagesOf_canon (rs : ReplicaSet) : imagesOf rs.canon = imagesOf rs := by
  have himages : rs.canon.containers.mapM Container.image = rs.containers.mapM Container.image := by
    rw [ReplicaSet.canon, List.mapM_map]
    rfl
  rw [imagesOf, himages, imagesOf]

theorem revisionJson_canon (current : Option ℤ) (rs : ReplicaSet) :
    (revisionJson current rs.canon).map Json.canon = (revisionJson current rs).map Json.canon := by
  unfold revisionJson
  rw [imagesOf_canon]
  rcases imagesOf rs with e | images
  · rfl
  · refine congrArg Except.ok (canon_obj_congr ?_)
    simp only [canonMembers, ReplicaSet.canon, canon_canon]
    rfl

theorem mapM_congr_canon {X : Type} (f : X → Except Raised Json) (g : X → X)
    (h : ∀ x, (f (g x)).map Json.canon = (f x).map Json.canon) (xs : List X) :
    ((xs.map g).mapM f).map canonAll = (xs.mapM f).map canonAll := by
  induction xs with
  | nil => rfl
  | cons x xs ih =>
    rw [List.map_cons, List.mapM_cons, List.mapM_cons]
    have hx := h x
    revert hx ih
    rcases f (g x) with e | v <;> rcases f x with e' | w <;> intro ih hx
    · exact congrArg Except.error (Except.error.inj hx)
    · cases hx
    · cases hx
    · revert ih
      rcases (xs.map g).mapM f with e | vs <;> rcases xs.mapM f with e' | ws <;> intro ih
      · exact congrArg Except.error (Except.error.inj ih)
      · cases ih
      · cases ih
      · exact congrArg Except.ok (congrArg₂ List.cons (Except.ok.inj hx) (Except.ok.inj ih))

theorem history_canon (d : Deployment) : d.canon.history.map Json.canon = d.history.map Json.canon := by
  have hsort : (d.canon.replicasets.insertionSort fun a b => b.revision ≤ a.revision) =
      (d.replicasets.insertionSort fun a b => b.revision ≤ a.revision).map ReplicaSet.canon :=
    (List.map_insertionSort (fun a b : ReplicaSet => b.revision ≤ a.revision)
      (fun a b : ReplicaSet => b.revision ≤ a.revision) ReplicaSet.canon d.replicasets fun _ _ _ _ => Iff.rfl).symm
  have hcurrent : ∀ xs : List ReplicaSet, (xs.map ReplicaSet.canon).head?.map ReplicaSet.revision =
      xs.head?.map ReplicaSet.revision := by
    intro xs
    rw [List.head?_map, Option.map_map]
    rfl
  have hreplicas : canonMembers d.canon.replicas = canonMembers d.replicas := by
    simp only [canonMembers_eq, Deployment.canon, List.map_map]
    exact List.map_congr_left fun m _ => congrArg (m.1, ·) (canon_canon m.2)
  unfold Deployment.history
  dsimp only
  rw [hsort, hcurrent, ← List.map_take]
  generalize (d.replicasets.insertionSort fun a b => b.revision ≤ a.revision) = revisions
  have hshown := mapM_congr_canon (revisionJson (revisions.head?.map ReplicaSet.revision)) ReplicaSet.canon
    (revisionJson_canon _) (revisions.take 10)
  revert hshown
  rcases ((revisions.take 10).map ReplicaSet.canon).mapM (revisionJson _) with e | vs <;>
    rcases (revisions.take 10).mapM (revisionJson _) with e' | ws <;> intro hshown
  · exact congrArg Except.error (Except.error.inj hshown)
  · cases hshown
  · cases hshown
  · refine congrArg Except.ok (canon_obj_congr ?_)
    simp only [canonMembers, canon, Except.ok.inj hshown, hreplicas]
    simp only [Deployment.canon, canon_canon]

/-! The diff. -/

/-- Every value that `_flatten` prints has but one order. -/
def Container.plain (c : Container) : Bool := c.printed.all fun p => p.2.plain

def ReplicaSet.plain (rs : ReplicaSet) : Bool := rs.containers.all Container.plain

/-- So it is with both templates that are compared. -/
def Deployment.plainFor (d : Deployment) (args : DiffArgs) : Bool :=
  match d.compared args with
  | .ok (a, b) => a.plain && b.plain
  | .error _ => true

def plainAnswer (raw : Json) (args : DiffArgs) : Bool := (Deployment.ofJson raw).all fun d => d.plainFor args

theorem Container.plain_canon (c : Container) : c.canon.plain = c.plain := by
  simp only [Container.plain, Container.canon, List.all_map, Function.comp_def, Prod.map_snd, Json.plain_canon]

theorem ReplicaSet.plain_canon (rs : ReplicaSet) : rs.canon.plain = rs.plain := by
  simp only [ReplicaSet.plain, ReplicaSet.canon, List.all_map, Function.comp_def, Container.plain_canon]

section

variable (printable : Char → Bool)

theorem EnvVar.text_canon (e : EnvVar) : e.canon.text printable = e.text printable := by
  rcases e with ⟨name, value⟩ | ⟨name, keys⟩
  · rfl
  · have hsort : (keys.insertionSort fun a b => a ≤ b).Pairwise fun a b => a ≤ b := List.pairwise_insertionSort _ keys
    rw [EnvVar.canon, EnvVar.text, EnvVar.text, List.Pairwise.insertionSort_eq hsort]

theorem EnvVar.name_canon (e : EnvVar) : e.canon.name = e.name := by cases e <;> rfl

theorem printed_canon {c : Container} (h : c.plain = true) : c.canon.printed = c.printed := by
  refine (List.map_congr_left fun p hp => ?_).trans (List.map_id _)
  rw [Prod.map_apply, canon_of_plain p.2 (List.all_eq_true.mp h p hp)]
  rfl

theorem flattenContainer_canon {c : Container} (h : c.plain = true) (out : List (String × String)) :
    flattenContainer printable out c.canon = flattenContainer printable out c := by
  unfold flattenContainer
  rw [printed_canon h]
  simp only [Container.canon, List.foldl_map, EnvVar.text_canon, EnvVar.name_canon]

theorem foldl_flatten_canon {cs : List Container} (h : ∀ c ∈ cs, c.plain = true)
    (out : List (String × String)) :
    (cs.map Container.canon).foldl (flattenContainer printable) out = cs.foldl (flattenContainer printable) out := by
  induction cs generalizing out with
  | nil => rfl
  | cons c cs ih =>
    rw [List.map_cons, List.foldl_cons, List.foldl_cons, flattenContainer_canon printable (h c List.mem_cons_self)]
    exact ih (fun c hc => h c (List.mem_cons_of_mem _ hc)) _

theorem sorted_annotations (ms : List (String × String)) :
    (ms.insertionSort fun a b => a.1 ≤ b.1).Pairwise fun a b => a.1 ≤ b.1 := by
  let le : String × String → String × String → Prop := fun a b => a.1 ≤ b.1
  have : Std.Total le := ⟨fun a b => String.le_total a.1 b.1⟩
  have : IsTrans (String × String) le := ⟨fun _ _ _ => String.le_trans⟩
  exact List.pairwise_insertionSort le ms

theorem flatten_canon {rs : ReplicaSet} (h : rs.plain = true) : flatten printable rs.canon = flatten printable rs := by
  unfold flatten
  rw [show rs.canon.containers = rs.containers.map Container.canon from rfl,
    foldl_flatten_canon printable (List.all_eq_true.mp h)]
  refine congrArg (List.foldl _ · _) (congrArg (List.foldl _ _) ?_)
  exact List.Pairwise.insertionSort_eq (sorted_annotations rs.annotations)

theorem revisions_canon (d : Deployment) : d.canon.revisions = d.revisions.map (Prod.map id ReplicaSet.canon) := by
  have hfold : ∀ (rss : List ReplicaSet) (out : List (ℤ × ReplicaSet)),
      (rss.map ReplicaSet.canon).foldl (fun out rs => Dict.set out rs.revision rs)
          (out.map (Prod.map id ReplicaSet.canon)) =
        (rss.foldl (fun out rs => Dict.set out rs.revision rs) out).map (Prod.map id ReplicaSet.canon) := by
    intro rss
    induction rss with
    | nil => exact fun _ => rfl
    | cons rs rss ih =>
      intro out
      rw [List.map_cons, List.foldl_cons, List.foldl_cons, ← ih, Dict.map_set]
      rfl
  exact hfold d.replicasets []

theorem lookup_map_snd {K V W : Type} [DecidableEq K] (f : V → W) (d : List (K × V)) (k : K) :
    (d.map (Prod.map id f)).lookup k = (d.lookup k).map f := by
  induction d with
  | nil => rfl
  | cons m d ih =>
    rw [List.map_cons, List.lookup_cons, List.lookup_cons, ih]
    by_cases h : k = m.1
    · rw [h, Prod.map_fst, id, beq_self_eq_true]
      rfl
    · rw [Prod.map_fst, id, beq_false_of_ne h]

theorem compared_canon (d : Deployment) (args : DiffArgs) :
    d.canon.compared args = (d.compared args).map (Prod.map ReplicaSet.canon ReplicaSet.canon) := by
  have hkeys : d.canon.revisions.map Prod.fst = d.revisions.map Prod.fst := by
    rw [revisions_canon, List.map_map]
    rfl
  unfold Deployment.compared
  dsimp only
  rw [hkeys]
  rcases ((d.revisions.map Prod.fst).insertionSort fun a b => a ≤ b).getLast? with _ | newest
  · rfl
  · dsimp only
    simp only [revisions_canon, lookup_map_snd]
    generalize (args.toRevision.filter (· ≠ 0)).getD newest = toRev
    generalize (args.fromRevision.filter (· ≠ 0) <|> _) = fromRev
    rcases fromRev with _ | r
    · rfl
    · rw [Option.bind_some, Option.bind_some]
      rcases d.revisions.lookup r with _ | a
      · rfl
      · rcases d.revisions.lookup toRev with _ | b <;> rfl

theorem diff_canon {d : Deployment} {args : DiffArgs} (h : d.plainFor args = true) :
    (d.canon.diff printable args).map Json.canon = (d.diff printable args).map Json.canon := by
  unfold Deployment.plainFor at h
  unfold Deployment.diff
  rw [compared_canon]
  rcases hab : d.compared args with e | ⟨a, b⟩ <;> rw [hab] at h
  · rfl
  · obtain ⟨ha, hb⟩ := Bool.and_eq_true_iff.mp h
    have hside : ∀ rs : ReplicaSet, rs.canon.side.canon = rs.side.canon := by
      intro rs
      refine canon_obj_congr ?_
      simp only [canonMembers, ReplicaSet.canon, canon_canon]
    refine congrArg Except.ok (canon_obj_congr ?_)
    simp only [flatten_canon printable ha, flatten_canon printable hb]
    simp only [List.cons_append, canonMembers, hside]

theorem plainFor_canon (d : Deployment) (args : DiffArgs) : d.canon.plainFor args = d.plainFor args := by
  unfold Deployment.plainFor
  rw [compared_canon]
  rcases d.compared args with e | ⟨a, b⟩
  · rfl
  · exact congrArg₂ and a.plain_canon b.plain_canon

theorem plainAnswer_canon (raw : Json) (args : DiffArgs) : plainAnswer raw.canon args = plainAnswer raw args := by
  unfold plainAnswer
  rw [Deployment.ofJson_canon]
  rcases Deployment.ofJson raw with _ | d
  · rfl
  · exact plainFor_canon d args

theorem summarizeHistory_canon (raw : Json) :
    (summarizeHistory raw.canon).map (Except.map Json.canon) = (summarizeHistory raw).map (Except.map Json.canon) := by
  unfold summarizeHistory
  rw [Deployment.ofJson_canon, Option.map_map, Option.map_map, Option.map_map]
  exact congrArg (Option.map · _) (funext history_canon)

theorem summarizeDiff_canon {raw : Json} {args : DiffArgs} (h : plainAnswer raw args = true) :
    (summarizeDiff printable raw.canon args).map (Except.map Json.canon) =
      (summarizeDiff printable raw args).map (Except.map Json.canon) := by
  unfold plainAnswer at h
  unfold summarizeDiff
  rw [Deployment.ofJson_canon]
  rcases hd : Deployment.ofJson raw with _ | d <;> rw [hd] at h
  · rfl
  · exact congrArg some (diff_canon printable h)

/-- One order gives what another gives: always for the events and the history, and for the diff where the printed
values have but one. -/
theorem summaries_alike {raw raw' : Json} (hraw : raw.Alike raw') (args : DiffArgs) :
    (summarizeEvents raw).map Json.canon = (summarizeEvents raw').map Json.canon ∧
      (summarizeHistory raw).map (Except.map Json.canon) = (summarizeHistory raw').map (Except.map Json.canon) ∧
      (plainAnswer raw args = true →
        (summarizeDiff printable raw args).map (Except.map Json.canon) =
          (summarizeDiff printable raw' args).map (Except.map Json.canon)) := by
  have hcanon : raw.canon = raw'.canon := hraw
  refine ⟨?_, ?_, fun h => ?_⟩
  · rw [← summarizeEvents_canon raw, hcanon, summarizeEvents_canon]
  · rw [← summarizeHistory_canon raw, hcanon, summarizeHistory_canon]
  · have h' : plainAnswer raw' args = true := by rw [← plainAnswer_canon, ← hcanon, plainAnswer_canon, h]
    rw [← summarizeDiff_canon printable h, hcanon, summarizeDiff_canon printable h']

end

namespace Sample

def printable (c : Char) : Bool := 32 ≤ c.toNat && c.toNat < 127

def replicaset (revision : String) (more : List (String × Json)) : Json :=
  .obj [("metadata", .obj [("annotations", .obj [(REVISION, .str revision)])]),
    ("spec", .obj [("template", .obj [("metadata", .obj []),
      ("spec", .obj [("containers", .arr [.obj (("name", .str "web") :: ("image", .str "web:1") :: more)])])])])]

def answer (ports : List (String × Json)) : Json :=
  .obj [("namespace", .str "demo"), ("deployment", .obj [("metadata", .obj [("name", .str "web")])]),
    ("replicasets", .arr [replicaset "1" [], replicaset "2" [("ports", .arr [.obj ports])]])]

def live : Json := answer [("containerPort", .num 8080), ("protocol", .str "TCP")]

def stored : Json := answer [("protocol", .str "TCP"), ("containerPort", .num 8080)]

def shown (r : Option (Except Raised Json)) : List Char :=
  match r with
  | some (.ok j) => ((j.get? "changes").bind fun cs => cs.asArr?.bind fun cs => cs.head?.bind fun c =>
      (c.get? "to").bind fun t => t.asStr?.map String.toList).getD []
  | _ => []

theorem live_alike_stored : live.Alike stored := by
  rfl

def webArgs : DeployDiffArgs where
  deployment := ⟨"web", by simp [objectName, labelEdge], by decide⟩

theorem diff_shows_order : live.Alike stored ∧
    (summarizeDiff printable live (.ofArgs webArgs)).map (Except.map Json.canon) ≠
      (summarizeDiff printable stored (.ofArgs webArgs)).map (Except.map Json.canon) := by
  refine ⟨live_alike_stored, fun h => ?_⟩
  have hshown := congrArg (fun r => (shown r).take 4) h
  revert hshown
  decide +kernel

/-- One port is one member. -/
def same : Json := answer [("containerPort", .num 8080)]

def turned : Json :=
  .obj [("replicasets",
    .arr [replicaset "1" [], replicaset "2" [("ports", .arr [.obj [("containerPort", .num 8080)]])]]),
    ("deployment", .obj [("metadata", .obj [("name", .str "web")])]), ("namespace", .str "demo")]

theorem summaries_alike_turned :
    (summarizeEvents same).map Json.canon = (summarizeEvents turned).map Json.canon ∧
      (summarizeHistory same).map (Except.map Json.canon) = (summarizeHistory turned).map (Except.map Json.canon) ∧
      (summarizeDiff printable same (.ofArgs webArgs)).map (Except.map Json.canon) =
        (summarizeDiff printable turned (.ofArgs webArgs)).map (Except.map Json.canon) := by
  obtain ⟨hevents, hhistory, hdiff⟩ := summaries_alike printable (show same.Alike turned from rfl) (.ofArgs webArgs)
  exact ⟨hevents, hhistory, hdiff (by decide +kernel)⟩

end Sample

end Blackboard.Tools.Kube
