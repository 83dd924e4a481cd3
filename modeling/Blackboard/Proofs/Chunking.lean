import Mathlib.Data.List.Nodup
import Mathlib.Data.List.TakeWhile
import Blackboard.Spec.Chunking

/-! A document has a chunk exactly if its body has more than white space, and no two chunks have one id.
Of equal hashed texts with equal front matter the bodies are equal; front matter without the separators
is told by the text alone. -/

namespace Blackboard.Kb

open Strings

/-! Blank bodies. -/

theorem not_isSpace_of_wordChar {c : Char} (h : wordChar c = true) : Lines.isSpace c = false := by
  have hc : (48 ≤ c.toNat ∧ c.toNat ≤ 57) ∨ (65 ≤ c.toNat ∧ c.toNat ≤ 90) ∨ (97 ≤ c.toNat ∧ c.toNat ≤ 122) ∨
      c.toNat = 95 := by
    rw [wordChar, Char.isAlphanum, show c.isAlpha = (c.isUpper || c.isLower) from rfl] at h
    delta Char.isUpper Char.isLower at h
    simp only [Char.isDigit, Bool.or_eq_true,
      Bool.and_eq_true, decide_eq_true_eq, UInt32.le_iff_toNat_le, ge_iff_le] at h
    have hv : c.toNat = c.val.toNat := rfl
    have h1 : 'A'.val.toNat = 65 ∧ 'Z'.val.toNat = 90 ∧ 'a'.val.toNat = 97 ∧ 'z'.val.toNat = 122 ∧ '0'.val.toNat = 48 ∧
      '9'.val.toNat = 57 := by decide
    rcases h with ((h | h) | h) | h
    · omega
    · omega
    · omega
    · subst h
      decide
  unfold Lines.isSpace
  simp only [Bool.or_eq_false_iff, decide_eq_false_iff_not, List.mem_cons, List.not_mem_nil, or_false,
    Bool.and_eq_false_iff]
  omega

theorem exists_visible_of_tokens {text : List Char} (h : 0 < tokens text) : ∃ c ∈ text, Lines.isSpace c = false := by
  obtain ⟨m, hm⟩ := List.exists_mem_of_length_pos h
  refine Regex.exists_of_mem_finditer (p := fun c => Lines.isSpace c = false) ?_ hm
  refine ⟨Or.inl fun c hc => not_isSpace_of_wordChar hc, fun c hc => ?_⟩
  simp only [Bool.and_eq_true, Bool.not_eq_true'] at hc
  exact hc.1

theorem finditer_heading_blank {body : List Char} (h : Lines.isBlank body = true) :
    Regex.finditer HEADING body = [] := by
  refine List.eq_nil_iff_forall_not_mem.mpr fun m hm => ?_
  obtain ⟨c, hc, rfl⟩ := Regex.exists_of_mem_finditer (p := fun c => c = '#')
    (r := HEADING) (Or.inr (Or.inl (Or.inl (Or.inl fun c hc => of_decide_eq_true hc)))) hm
  exact absurd (List.all_eq_true.mp h _ hc) (by decide)

theorem sections_eq_nil {body : List Char} : sections body = [] ↔ Lines.isBlank body = true := by
  constructor
  · intro h
    obtain ⟨h1, h2⟩ := List.append_eq_nil_iff.mp h
    cases hm : Regex.finditer HEADING body with
    | nil =>
      have h3 : strip Lines.isSpace body = [] := by
        by_contra hne
        simp [hm, hne] at h1
      exact List.all_eq_true.mpr (strip_eq_nil.mp h3)
    | cons m ms =>
      rcases List.zipWith_eq_nil_iff.mp h2 with h2 | h2 <;> simp [hm] at h2
  · intro h
    have h1 : strip Lines.isSpace body = [] := strip_eq_nil.mpr (List.all_eq_true.mp h)
    simp [sections, finditer_heading_blank h, h1]

/-- What is before the first separator is told from what is after. -/
theorem append_sep_inj {α : Type} {sep : α} {x : List α} : ∀ {y r s : List α}, sep ∉ x → sep ∉ y →
    x ++ sep :: r = y ++ sep :: s → x = y ∧ r = s := by
  induction x with
  | nil =>
    intro y r s _ hy h
    cases y with
    | nil => exact ⟨rfl, (List.cons.inj h).2⟩
    | cons b y => exact absurd (List.cons.inj h).1 fun he => hy (he ▸ List.mem_cons_self)
  | cons a x ih =>
    intro y r s hx hy h
    cases y with
    | nil => exact absurd (List.cons.inj h).1.symm fun he => hx (he ▸ List.mem_cons_self)
    | cons b y =>
      obtain ⟨rfl, h1⟩ := List.cons.inj h
      obtain ⟨rfl, rfl⟩ := ih (fun hm => hx (List.mem_cons_of_mem _ hm)) (fun hm => hy (List.mem_cons_of_mem _ hm)) h1
      exact ⟨rfl, rfl⟩

theorem mem_intercalate {c : Char} {s l : List Char} (hc : c ∈ l) {ls : List (List Char)} (hl : l ∈ ls) :
    c ∈ s.intercalate ls := by
  induction ls with
  | nil => cases hl
  | cons k ls ih =>
    by_cases hls : ls = []
    · subst hls
      rw [List.mem_singleton] at hl
      subst hl
      simpa using hc
    · rw [List.intercalate_cons_of_ne_nil hls]
      rcases List.mem_cons.mp hl with rfl | hl
      · simp [hc]
      · simp [ih hl]

theorem blocksFrom_ne_nil (lines : List (List Char)) : ∀ {fence : Bool} {buf : List (List Char)},
    (∃ l ∈ buf ++ lines, Lines.isBlank l = false) → ∃ b ∈ blocksFrom fence buf lines, b ≠ [] := by
  have hjoin : ∀ {buf : List (List Char)} {l}, l ∈ buf → Lines.isBlank l = false → joinLines buf ≠ [] := by
    intro buf l hl hv hj
    obtain ⟨c, hc, -⟩ := List.all_eq_false.mp hv
    have hmem : c ∈ joinLines buf := mem_intercalate hc hl
    rw [hj] at hmem
    cases hmem
  induction lines with
  | nil =>
    rintro fence buf ⟨l, hl, hv⟩
    rw [List.append_nil] at hl
    rw [blocksFrom, if_pos (List.ne_nil_of_mem hl)]
    exact ⟨_, List.mem_singleton_self _, hjoin hl hv⟩
  | cons line lines ih =>
    rintro fence buf ⟨l, hl, hv⟩
    simp only [blocksFrom]
    generalize (if isFence line then !fence else fence) = fence
    generalize (!fence && (Lines.isBlank line || !fence && Regex.isMatch ITEM line) && decide (buf ≠ [])) = cut
    simp only [List.mem_append, List.mem_cons] at hl
    -- a line of the buffer is in the block cut off, or still in the buffer
    by_cases hcut : l ∈ buf ∧ cut = true
    · refine ⟨joinLines buf, ?_, hjoin hcut.1 hv⟩
      rw [if_pos hcut.2]
      exact List.mem_append_left _ (List.mem_singleton_self _)
    · have hin : l ∈ (if !Lines.isBlank line || fence then (if cut then [] else buf) ++ [line]
          else if cut then [] else buf) ++ lines := by
        rcases hl with hl | rfl | hl
        · rw [if_neg fun h => hcut ⟨hl, h⟩]
          refine List.mem_append_left _ ?_
          split_ifs <;> simp [hl]
        · simp [hv]
        · exact List.mem_append_right _ hl
      obtain ⟨b, hb, hne⟩ := @ih fence _ ⟨l, hin, hv⟩
      exact ⟨b, List.mem_append_right _ hb, hne⟩

theorem blocks_ne_nil {text : List Char} {c : Char} (hv : Lines.isSpace c = false) (hc : c ∈ text) :
    ∃ b ∈ blocks text, b ≠ [] := by
  obtain ⟨l, hl, hcl⟩ := Lines.mem_splitlines hv hc
  exact blocksFrom_ne_nil _ ⟨l, hl, Lines.isBlank_eq_false hv hcl⟩

theorem splitFrom_ne_nil {params : ChunkParams} (blocks : List (List Char)) : ∀ {buf : List Char},
    (buf ≠ [] ∨ ∃ b ∈ blocks, b ≠ []) → splitFrom params buf blocks ≠ [] := by
  induction blocks with
  | nil =>
    intro buf h
    simp [splitFrom, h.resolve_right (by simp)]
  | cons block blocks ih =>
    intro buf h
    rw [splitFrom]
    split_ifs with h1 h2
    · simp
    · exact ih (Or.inl (by simp))
    · refine ih ?_
      obtain ⟨b, hb, hne⟩ := h.resolve_left h2
      rcases List.mem_cons.mp hb with rfl | hb
      · exact Or.inl hne
      · exact Or.inr ⟨b, hb, hne⟩

theorem split_ne_nil (text : List Char) (params : ChunkParams) : split text params ≠ [] := by
  unfold split
  split_ifs with h
  · simp
  · obtain ⟨c, hc, hv⟩ := exists_visible_of_tokens (by omega : 0 < tokens text)
    exact splitFrom_ne_nil _ (Or.inr (blocks_ne_nil hv hc))

theorem pieces_eq_nil {doc : Document} {p : ChunkParams} :
    pieces doc p = [] ↔ Lines.isBlank doc.body.toList = true := by
  rw [← sections_eq_nil, pieces, List.flatMap_eq_nil_iff]
  constructor
  · intro h
    refine List.eq_nil_iff_forall_not_mem.mpr fun s hs => split_ne_nil s.2 p ?_
    simpa using h s hs
  · intro h s hs
    simp [h] at hs

theorem addPiece_ne_nil (params : ChunkParams) (merged : List (List (List Char) × List Char))
    (piece : List Char × ℕ × List Char) : addPiece params merged piece ≠ [] := by
  simp only [addPiece]
  split
  · split_ifs <;> simp
  · simp

theorem foldl_addPiece_eq_nil {params : ChunkParams} {ps : List (List Char × ℕ × List Char)}
    {merged : List (List (List Char) × List Char)} :
    ps.foldl (addPiece params) merged = [] ↔ merged = [] ∧ ps = [] := by
  induction ps generalizing merged with
  | nil => simp
  | cons p ps ih => simp [ih, addPiece_ne_nil]

theorem chunk_eq_nil {doc : Document} {p : ChunkParams} :
    chunk doc p = [] ↔ Lines.isBlank doc.body.toList = true := by
  rw [← pieces_eq_nil (p := p)]
  simp [chunk, foldl_addPiece_eq_nil]

/-! The ids of chunks. -/

/-- `f"{n:02d}"` -/
theorem leftpad_digits_inj {m n : ℕ}
    (h : (Nat.toDigits 10 m).leftpad 2 '0' = (Nat.toDigits 10 n).leftpad 2 '0') : m = n := by
  have hval : ∀ k, Nat.ofDigitChars 10 ((Nat.toDigits 10 k).leftpad 2 '0') 0 = k := by
    intro k
    rw [List.leftpad, Nat.ofDigitChars_append, Nat.ofDigitChars_replicate_zero, Nat.mul_zero,
      Nat.ofDigitChars_ten_toDigits]
  rw [← hval m, h, hval n]

theorem hash_not_mem_leftpad (n : ℕ) : '#' ∉ (Nat.toDigits 10 n).leftpad 2 '0' := by
  intro h
  rcases List.mem_append.mp h with h | h
  · exact absurd (List.eq_of_mem_replicate h) (by decide)
  · exact absurd (Nat.isDigit_of_mem_toDigits (by decide) (by decide) h) (by decide)

theorem chunkId_inj {c d : Chunk} (h : c.chunkId = d.chunkId) : c.docId = d.docId ∧ c.ordinal = d.ordinal := by
  have h1 := congrArg (fun s => s.toList.reverse) h
  simp only [Chunk.chunkId, String.toList_append, String.toList_ofList, List.reverse_append] at h1
  -- read from its end, the id has its first "#" before the number
  obtain ⟨h2, h3⟩ := append_sep_inj (fun h => hash_not_mem_leftpad _ (List.mem_reverse.mp h))
    (fun h => hash_not_mem_leftpad _ (List.mem_reverse.mp h)) h1
  exact ⟨String.toList_inj.mp (List.reverse_injective h3), leftpad_digits_inj (List.reverse_injective h2)⟩

theorem docId_of_mem_chunk {doc : Document} {params : ChunkParams} {c : Chunk} (h : c ∈ chunk doc params) :
    c.docId = doc.id := by
  simp only [chunk, List.mem_map] at h
  obtain ⟨x, -, rfl⟩ := h
  rfl

theorem nodup_chunkIds (doc : Document) (params : ChunkParams) : ((chunk doc params).map (·.chunkId)).Nodup := by
  have h : ((chunk doc params).map (·.ordinal)).Nodup := by
    have h1 : (chunk doc params).map (·.ordinal) =
        (((pieces doc params).foldl (addPiece params) []).zipIdx.map Prod.snd).map (· + 1) := by
      simp only [chunk, List.map_map]
      rfl
    rw [h1, List.zipIdx_map_snd]
    exact List.Nodup.map Nat.succ_injective List.nodup_range'
  exact List.pairwise_map.mpr ((List.pairwise_map.mp h).imp fun hne heq => hne (chunkId_inj heq).2)

/-! The hashed text. -/

theorem body_of_hashed {a b : Document} (h : a.hashed = b.hashed) (hk : a.kind = b.kind) (ht : a.title = b.title)
    (hs : a.services = b.services) (hv : a.version = b.version) : a.body = b.body := by
  simp only [Document.hashed, hk, ht, hs, hv] at h
  have h1 := congrArg String.toList h
  simp only [String.toList_append] at h1
  exact String.toList_inj.mp (List.append_cancel_left h1)

/-- A list of texts is told by the texts joined, if none is empty or has the separator. -/
theorem intercalate_inj {sep : Char} {xs : List (List Char)} : ∀ {ys : List (List Char)},
    (∀ x ∈ xs, x ≠ [] ∧ sep ∉ x) → (∀ y ∈ ys, y ≠ [] ∧ sep ∉ y) → [sep].intercalate xs = [sep].intercalate ys →
    xs = ys := by
  induction xs with
  | nil =>
    intro ys _ hy h
    cases ys with
    | nil => rfl
    | cons y ys =>
      obtain ⟨c, hc⟩ := List.exists_mem_of_ne_nil y (hy y List.mem_cons_self).1
      have hmem := mem_intercalate (s := [sep]) hc (List.mem_cons_self (l := ys))
      rw [← h] at hmem
      cases hmem
  | cons x xs ih =>
    intro ys hx hy h
    cases ys with
    | nil =>
      obtain ⟨c, hc⟩ := List.exists_mem_of_ne_nil x (hx x List.mem_cons_self).1
      have hmem := mem_intercalate (s := [sep]) hc (List.mem_cons_self (l := xs))
      rw [h] at hmem
      cases hmem
    | cons y ys =>
      have hx1 := (hx x List.mem_cons_self).2
      have hy1 := (hy y List.mem_cons_self).2
      by_cases hxs : xs = [] <;> by_cases hys : ys = []
      · subst hxs hys
        simpa using h
      · subst hxs
        rw [List.intercalate_singleton, List.intercalate_cons_of_ne_nil hys] at h
        exact absurd (by simp [h]) hx1
      · subst hys
        rw [List.intercalate_singleton, List.intercalate_cons_of_ne_nil hxs] at h
        exact absurd (by simp [← h]) hy1
      · rw [List.intercalate_cons_of_ne_nil hxs, List.intercalate_cons_of_ne_nil hys, List.append_assoc,
          List.append_assoc] at h
        obtain ⟨rfl, h1⟩ := append_sep_inj hx1 hy1 h
        rw [ih (fun z hz => hx z (List.mem_cons_of_mem _ hz)) (fun z hz => hy z (List.mem_cons_of_mem _ hz)) h1]

/-- Front matter whose fields have none of the characters they are joined with. -/
structure Plain (doc : Document) : Prop where
  kind : '\n' ∉ doc.kind.toList
  title : '\n' ∉ doc.title.toList
  services : ∀ s ∈ doc.services, s ≠ "" ∧ ',' ∉ s.toList ∧ '\n' ∉ s.toList
  version : '\n' ∉ doc.version.toList

theorem not_mem_intercalate {c : Char} {sep : List Char} (hs : c ∉ sep) {ls : List (List Char)} (hl : ∀ l ∈ ls, c ∉ l) :
    c ∉ sep.intercalate ls := by
  induction ls with
  | nil => simp
  | cons l ls ih =>
    have ih := ih fun l' hl' => hl l' (List.mem_cons_of_mem l hl')
    by_cases hls : ls = []
    · subst hls
      simpa using hl l List.mem_cons_self
    · rw [List.intercalate_cons_of_ne_nil hls]
      simp [hl l List.mem_cons_self, hs, ih]

theorem hashed_inj {a b : Document} (ha : Plain a) (hb : Plain b) (h : a.hashed = b.hashed) :
    a.kind = b.kind ∧ a.title = b.title ∧ a.services = b.services ∧ a.version = b.version := by
  have h1 := congrArg String.toList h
  simp only [Document.hashed, String.toList_append, String.toList_intercalate, List.append_assoc] at h1
  have hservices : ∀ {d : Document}, Plain d → '\n' ∉ [','].intercalate (d.services.map String.toList) := by
    intro d hd
    refine not_mem_intercalate (by decide) fun l hl => ?_
    obtain ⟨s, hs, rfl⟩ := List.mem_map.mp hl
    exact (hd.services s hs).2.2
  have hitems : ∀ {d : Document}, Plain d → ∀ l ∈ d.services.map String.toList, l ≠ [] ∧ ',' ∉ l := by
    intro d hd l hl
    obtain ⟨s, hs, rfl⟩ := List.mem_map.mp hl
    obtain ⟨hne, hcomma, -⟩ := hd.services s hs
    exact ⟨fun h => hne (String.toList_eq_nil_iff.mp h), hcomma⟩
  obtain ⟨hkind, h2⟩ := append_sep_inj ha.kind hb.kind h1
  obtain ⟨htitle, h3⟩ := append_sep_inj ha.title hb.title h2
  obtain ⟨hserv, h4⟩ := append_sep_inj (hservices ha) (hservices hb) h3
  obtain ⟨hversion, -⟩ := append_sep_inj ha.version hb.version h4
  exact ⟨String.toList_inj.mp hkind, String.toList_inj.mp htitle,
    List.map_injective_iff.mpr (fun _ _ => String.toList_injective) (intercalate_inj (hitems ha) (hitems hb) hserv),
    String.toList_inj.mp hversion⟩

end Blackboard.Kb
