import Mathlib.Data.List.Induction
import Mathlib.Data.List.Nodup

/-!
# Lists in order of first occurrence

Without its repetitions a list keeps what it has, in order of first occurrence. One element more at
the end makes a difference only if it is new (`eraseDups_concat`). That is what it comes to if what
is not there yet is added to a list, one element after the other; and it gives the order, which is
that of the positions in the list (`pairwise_idxOf_eraseDups`).
-/

namespace Dialectical

variable {α : Type} [BEq α] [LawfulBEq α]

/-- Erasing duplicates leaves none. -/
theorem nodup_eraseDups (as : List α) : as.eraseDups.Nodup := by
  -- the rest of the list is filtered before it is looked at, so the induction is on the length
  induction hn : as.length using Nat.strongRecOn generalizing as with
  | _ n ih =>
    cases as with
    | nil => exact List.nodup_nil
    | cons a as =>
      have hlen : (as.filter fun b ↦ !b == a).length < n := by
        rw [← hn, List.length_cons]
        exact Nat.lt_succ_of_le (List.length_filter_le _ _)
      rw [List.eraseDups_cons, List.nodup_cons, List.mem_eraseDups]
      exact ⟨by simp, ih _ hlen _ rfl⟩

/-- A last element is added if it is new. -/
theorem eraseDups_concat (as : List α) (a : α) [Decidable (a ∈ as)] :
    (as ++ [a]).eraseDups = if a ∈ as then as.eraseDups else as.eraseDups ++ [a] := by
  rw [List.eraseDups_append]
  split
  next h => simp [List.removeAll, h]
  next h => simp [List.removeAll, h, List.eraseDups_cons]

/-- **The order is that of first occurrence.** -/
theorem pairwise_idxOf_eraseDups (as : List α) :
    as.eraseDups.Pairwise fun a b ↦ as.idxOf a < as.idxOf b := by
  classical
  induction as using List.reverseRecOn with
  | nil => exact List.Pairwise.nil
  | append_singleton as a ih =>
    have hkept : as.eraseDups.Pairwise fun b c ↦ (as ++ [a]).idxOf b < (as ++ [a]).idxOf c := by
      refine ih.imp_of_mem fun {b c} hb hc hlt ↦ ?_
      rwa [List.idxOf_append_of_mem (List.mem_eraseDups.1 hb),
        List.idxOf_append_of_mem (List.mem_eraseDups.1 hc)]
    rw [eraseDups_concat]
    split
    next => exact hkept
    next ha =>
      refine List.pairwise_append.2 ⟨hkept, List.pairwise_singleton _ _, fun b hb c hc ↦ ?_⟩
      obtain rfl := List.mem_singleton.1 hc
      rw [List.idxOf_append_of_mem (List.mem_eraseDups.1 hb), List.idxOf_append_of_notMem ha]
      exact Nat.lt_add_right _ (List.idxOf_lt_length_of_mem (List.mem_eraseDups.1 hb))

/-- Of two elements the one that occurs first comes first. -/
theorem lt_iff_idxOf_lt {as : List α} {a b : α} {i j : Nat} (ha : as.eraseDups[i]? = some a)
    (hb : as.eraseDups[j]? = some b) : i < j ↔ as.idxOf a < as.idxOf b := by
  have hmono : ∀ {i j : Nat} {a b : α}, as.eraseDups[i]? = some a → as.eraseDups[j]? = some b →
      i < j → as.idxOf a < as.idxOf b := by
    intro i j a b ha hb hij
    obtain ⟨hi, rfl⟩ := List.getElem?_eq_some_iff.1 ha
    obtain ⟨hj, rfl⟩ := List.getElem?_eq_some_iff.1 hb
    exact List.pairwise_iff_getElem.1 (pairwise_idxOf_eraseDups as) i j hi hj hij
  refine ⟨hmono ha hb, fun hlt ↦ ?_⟩
  rcases Nat.lt_trichotomy i j with hij | rfl | hij
  · exact hij
  · rw [Option.some.inj (ha.symm.trans hb)] at hlt
    exact absurd hlt (Nat.lt_irrefl _)
  · exact absurd (hmono hb ha hij) (Nat.lt_asymm hlt)

/-- Where nothing is repeated the order of first occurrence is that of the list. -/
theorem pairwise_idxOf_of_nodup {as : List α} (h : as.Nodup) :
    as.Pairwise fun a b ↦ as.idxOf a < as.idxOf b := by
  refine List.pairwise_iff_getElem.2 fun i j hi hj hij ↦ ?_
  rwa [h.idxOf_getElem, h.idxOf_getElem]

end Dialectical
