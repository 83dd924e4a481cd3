import Mathlib.Data.List.Nodup
import Mathlib.Data.String.Basic

/-! A digest whose values are known on some texts, for runs on concrete inputs. What is not known is told apart by the
text itself. -/

namespace Digest

variable {known : List (String × String)} {a b s : String}

def ofKnown (known : List (String × String)) (text : String) : String := (known.lookup text).getD ("sha256:" ++ text)

/-- Digests of hexadecimal digits, no two alike. -/
structure Proper (known : List (String × String)) : Prop where
  nodup : (known.map Prod.snd).Nodup
  hex : ∀ d ∈ known.map Prod.snd, d.toList.head? ≠ some 's'

theorem mem_of_lookup (h : known.lookup a = some s) : (a, s) ∈ known := by
  obtain ⟨l, r, he, -⟩ := List.lookup_eq_some_iff.mp h
  exact he ▸ List.mem_append_right _ List.mem_cons_self

theorem head?_other (text : String) : ("sha256:" ++ text).toList.head? = some 's' := by
  rw [String.toList_append]
  rfl

theorem Proper.ne_other (h : Proper known) (ha : known.lookup a = some s) (text : String) :
    s ≠ "sha256:" ++ text := fun he =>
  h.hex s (List.mem_map_of_mem (mem_of_lookup ha)) (he ▸ head?_other text)

theorem Proper.injective (h : Proper known) : Function.Injective (ofKnown known) := by
  intro a b he
  unfold ofKnown at he
  rcases ha : known.lookup a with _ | s <;> rcases hb : known.lookup b with _ | t <;>
    simp only [ha, hb, Option.getD_some, Option.getD_none] at he
  · exact String.toList_injective (by simpa using congrArg String.toList he)
  · exact absurd he.symm (h.ne_other hb a)
  · exact absurd he (h.ne_other ha b)
  · have := List.inj_on_of_nodup_map h.nodup (mem_of_lookup ha) (mem_of_lookup hb) he
    exact (Prod.mk.inj this).1

theorem ofKnown_some (h : known.lookup a = some s) : ofKnown known a = s := by rw [ofKnown, h, Option.getD_some]

/-- A text that is not the digest of a known one, and does not read as one of the others, is no digest. -/
theorem ofKnown_ne (hs : s ∉ known.map Prod.snd) (hhead : s.toList.head? ≠ some 's') (text : String) :
    ofKnown known text ≠ s := by
  intro he
  unfold ofKnown at he
  rcases hk : known.lookup text with _ | t <;> rw [hk] at he
  · exact hhead (he ▸ head?_other text)
  · exact hs (he ▸ List.mem_map_of_mem (mem_of_lookup hk))

end Digest
