import Mathlib.Data.List.Induction
import Mathlib.Tactic.Tauto

/-!
# First occurrences

Values, bindings, types and classes are gathered in lists by appending what equals nothing in the list
so far. The equality may pass over some of what it compares, so it matters which of two equal items is
kept: it is the first. If the equality is transitive, gathering can be done in parts. It gives the same
items in the same order, whether the parts are gathered one after the other or each on its own before.

## Main definitions

* `gatherBy` — append the items that equal none of the list so far
* `firstOccurrences` — the items that equal no earlier one

## Main results

* `gatherBy_eq_append`, `exists_mem_gatherBy`, `pairwise_gatherBy` — known items stay in front, every
  item is represented, and no item comes in twice
* `gatherBy_gatherBy`, `gatherBy_flatMap` — gathering in parts
* `gatherBy_nil` — what is gathered from nothing are the first occurrences
* `gatherBy_beq` — gathering by equality itself
* `gatherBy_flatMap_congr` — what equal items hold alike is gathered from one of them
-/

namespace StubInference

variable {α : Type} {same : α → α → Bool} {known start items : List α} {a : α}

/-- Append the items that equal none of the list so far, each once. -/
def gatherBy (same : α → α → Bool) (known items : List α) : List α :=
  items.foldl (fun known a => if known.any (same · a) then known else known ++ [a]) known

/-- The items that equal no earlier one, in order. -/
def firstOccurrences (same : α → α → Bool) (items : List α) : List α :=
  (items.zipIdx.filter fun (a, i) => !(items.take i).any (same · a)).map (·.1)

/-! ## One by one -/

theorem gatherBy_cons : gatherBy same known (a :: items) =
    gatherBy same (if known.any (same · a) then known else known ++ [a]) items := rfl

theorem gatherBy_append (items later : List α) : gatherBy same known (items ++ later) =
    gatherBy same (gatherBy same known items) later := List.foldl_append

/-- Known items stay in front, and whatever is appended is new. -/
theorem gatherBy_eq_append (same : α → α → Bool) (known items : List α) :
    ∃ extra, gatherBy same known items = known ++ extra ∧ extra ⊆ items := by
  induction items generalizing known with
  | nil => exact ⟨[], by simp [gatherBy], by simp⟩
  | cons a items ih =>
    obtain ⟨extra, appended, new⟩ := ih (if known.any (same · a) then known else known ++ [a])
    rw [gatherBy_cons, appended]
    split
    · exact ⟨extra, rfl, fun b hb => List.mem_cons_of_mem _ (new hb)⟩
    · exact ⟨a :: extra, by simp, List.cons_subset_cons a new⟩

theorem mem_gatherBy_of_mem (h : a ∈ known) (items : List α) : a ∈ gatherBy same known items := by
  obtain ⟨extra, appended, -⟩ := gatherBy_eq_append same known items
  rw [appended]
  exact List.mem_append_left _ h

theorem mem_or_mem_of_mem_gatherBy (h : a ∈ gatherBy same known items) : a ∈ known ∨ a ∈ items := by
  obtain ⟨extra, appended, new⟩ := gatherBy_eq_append same known items
  rw [appended, List.mem_append] at h
  exact h.imp_right fun ha => new ha

theorem mem_of_mem_gatherBy_nil (h : a ∈ gatherBy same [] items) : a ∈ items :=
  (mem_or_mem_of_mem_gatherBy h).resolve_left List.not_mem_nil

/-- Every item is in the list or represented there by an equal one. -/
theorem exists_mem_gatherBy (known : List α) (h : a ∈ items) :
    ∃ b ∈ gatherBy same known items, b = a ∨ same b a = true := by
  induction items generalizing known with
  | nil => cases h
  | cons c items ih =>
    rw [gatherBy_cons]
    rcases List.mem_cons.mp h with rfl | h
    · split
      case isTrue found =>
        obtain ⟨b, hb, hba⟩ := List.any_eq_true.mp found
        exact ⟨b, mem_gatherBy_of_mem hb _, .inr hba⟩
      case isFalse => exact ⟨a, mem_gatherBy_of_mem (by simp) _, .inl rfl⟩
    · exact ih _ h

/-- No item comes in twice. -/
theorem pairwise_gatherBy (distinct : known.Pairwise fun a b => same a b = false)
    (items : List α) : (gatherBy same known items).Pairwise fun a b => same a b = false := by
  induction items generalizing known with
  | nil => exact distinct
  | cons a items ih =>
    rw [gatherBy_cons]
    split
    case isTrue => exact ih distinct
    case isFalse new =>
      refine ih (List.pairwise_append.mpr ⟨distinct, by simp, fun b hb c hc => ?_⟩)
      obtain rfl := List.mem_singleton.mp hc
      by_contra found
      exact new (List.any_eq_true.mpr ⟨b, hb, by simpa using found⟩)

theorem gatherBy_ne_nil (h : items ≠ []) : gatherBy same known items ≠ [] := by
  obtain ⟨a, items, rfl⟩ := List.exists_cons_of_ne_nil h
  obtain ⟨b, hb, -⟩ := @exists_mem_gatherBy _ same (a :: items) a known List.mem_cons_self
  exact List.ne_nil_of_mem hb

/-- Distinct items are appended as they are. -/
theorem gatherBy_of_pairwise (distinct : (known ++ items).Pairwise fun a b => same a b = false) :
    gatherBy same known items = known ++ items := by
  induction items generalizing known with
  | nil => exact (List.append_nil known).symm
  | cons a items ih =>
    have new : ¬ known.any (same · a) = true := by
      rw [List.any_eq_true]
      rintro ⟨b, hb, found⟩
      rw [(List.pairwise_append.mp distinct).2.2 b hb a (by simp)] at found
      cases found
    rw [gatherBy_cons, if_neg new, ih (by simpa using distinct)]
    simp

theorem gatherBy_nil_of_pairwise (distinct : items.Pairwise fun a b => same a b = false) :
    gatherBy same [] items = items := @gatherBy_of_pairwise _ same [] items distinct

/-- Items that all equal known ones change nothing. -/
theorem gatherBy_of_known (h : ∀ a ∈ items, known.any (same · a) = true) :
    gatherBy same known items = known := by
  induction items with
  | nil => rfl
  | cons a items ih =>
    obtain ⟨found, others⟩ := List.forall_mem_cons.mp h
    rw [gatherBy_cons, if_pos found, ih others]

/-! ## In parts -/

section Transitive

variable (trans : ∀ ⦃a b c : α⦄, same a b = true → same b c = true → same a c = true)
include trans

/-- What equals a gathered item equals one of those that it was gathered from. -/
theorem any_gatherBy : (gatherBy same known items).any (same · a) =
    (known.any (same · a) || items.any (same · a)) := by
  induction items generalizing known with
  | nil => simp [gatherBy]
  | cons b items ih =>
    rw [gatherBy_cons, ih, List.any_cons]
    split
    case isTrue found =>
      -- the item is not appended, but what equals it equals the one that stands for it
      obtain ⟨c, hc, hcb⟩ := List.any_eq_true.mp found
      cases hba : same b a with
      | false => rw [Bool.false_or]
      | true =>
        have known_a : known.any (same · a) = true := List.any_eq_true.mpr ⟨c, hc, trans hcb hba⟩
        rw [known_a, Bool.true_or, Bool.true_or]
    case isFalse => simp [Bool.or_assoc]

/-- To append what was gathered on top of a list is to append the list and then all that it was gathered
from. -/
theorem gatherBy_gatherBy (known start items : List α) :
    gatherBy same known (gatherBy same start items) = gatherBy same known (start ++ items) := by
  induction items generalizing start with
  | nil => rw [List.append_nil]; rfl
  | cons a items ih =>
    rw [gatherBy_cons]
    split
    case isTrue found =>
      have already : (gatherBy same known start).any (same · a) = true := by
        rw [any_gatherBy trans, found, Bool.or_true]
      rw [ih, gatherBy_append, gatherBy_append, gatherBy_cons, if_pos already]
    case isFalse => rw [ih, List.append_assoc, List.singleton_append]

/-- Parts can be gathered each on its own first. -/
theorem gatherBy_flatMap {β : Type} (known : List α) (parts : List β) (items : β → List α) :
    gatherBy same known (parts.flatMap fun part => gatherBy same [] (items part)) =
      gatherBy same known (parts.flatMap items) := by
  induction parts generalizing known with
  | nil => rfl
  | cons part rest ih =>
    rw [List.flatMap_cons, List.flatMap_cons, gatherBy_append, gatherBy_append, ih,
      gatherBy_gatherBy trans, List.nil_append]

/-! ## In order -/

omit trans in
theorem firstOccurrences_concat (items : List α) (a : α) : firstOccurrences same (items ++ [a]) =
    firstOccurrences same items ++ if items.any (same · a) then [] else [a] := by
  have earlier : (items.zipIdx.filter fun (b, i) => !((items ++ [a]).take i).any (same · b)) =
      items.zipIdx.filter fun (b, i) => !(items.take i).any (same · b) := by
    refine List.filter_congr fun (b, i) member => ?_
    have inside : i < items.length := by simpa using List.snd_lt_of_mem_zipIdx member
    dsimp only
    rw [List.take_append_of_le_length (Nat.le_of_lt inside)]
  rw [firstOccurrences, List.zipIdx_append, List.filter_append, earlier, List.map_append,
    ← firstOccurrences]
  cases found : items.any (same · a) <;> simp [found]

omit trans in
theorem firstOccurrences_sublist (same : α → α → Bool) (items : List α) :
    (firstOccurrences same items).Sublist items := by
  have kept : (firstOccurrences same items).Sublist (items.zipIdx.map (·.1)) := List.filter_sublist.map _
  rwa [List.zipIdx_map_fst] at kept

/-- What is gathered from nothing are the items that equal no earlier one. -/
theorem gatherBy_nil (items : List α) : gatherBy same [] items = firstOccurrences same items := by
  induction items using List.reverseRecOn with
  | nil => rfl
  | append_singleton items a ih =>
    rw [firstOccurrences_concat, gatherBy_append, gatherBy_cons, any_gatherBy trans, ← ih]
    cases items.any (same · a) <;> simp [gatherBy]

end Transitive

/-! ## Under equality itself -/

section Equality

variable [DecidableEq α]

theorem transitive_beq ⦃a b c : α⦄ (hab : (a == b) = true) (hbc : (b == c) = true) : (a == c) = true := by
  rw [beq_iff_eq] at *
  exact hab.trans hbc

theorem gatherBy_beq (known items : List α) :
    gatherBy (· == ·) known items = known ++ (items.filter (· ∉ known)).eraseDups := by
  induction items generalizing known with
  | nil => simp [gatherBy]
  | cons a items ih =>
    rw [gatherBy_cons, ih]
    by_cases found : a ∈ known
    · simp [found]
    · -- what comes later is new only if it differs from this item too
      simp only [List.any_beq', List.contains_eq_mem, found, decide_false, Bool.false_eq_true,
        if_false, not_false_eq_true, decide_true, List.filter_cons_of_pos, List.eraseDups_cons,
        List.filter_filter, List.append_assoc, List.singleton_append]
      congr 3
      refine List.filter_congr fun b _ => ?_
      by_cases h : b = a <;> simp [h]

theorem firstOccurrences_beq (items : List α) : firstOccurrences (· == ·) items = items.eraseDups := by
  have all : items.filter (· ∉ []) = items := List.filter_eq_self.mpr fun _ _ => rfl
  rw [← gatherBy_nil transitive_beq, gatherBy_beq, all, List.nil_append]

theorem mem_gatherBy_beq : a ∈ gatherBy (· == ·) known items ↔ a ∈ known ∨ a ∈ items := by
  rw [gatherBy_beq, List.mem_append, List.mem_eraseDups, List.mem_filter, decide_eq_true_eq]
  tauto

theorem gatherBy_of_subset (h : items ⊆ known) : gatherBy (· == ·) known items = known :=
  gatherBy_of_known fun a ha => by simpa using h ha

theorem mem_firstOccurrences_beq : a ∈ firstOccurrences (· == ·) items ↔ a ∈ items := by
  rw [← gatherBy_nil transitive_beq, mem_gatherBy_beq]
  exact or_iff_right List.not_mem_nil

theorem nodup_firstOccurrences_beq (items : List α) : (firstOccurrences (· == ·) items).Nodup := by
  rw [← gatherBy_nil transitive_beq]
  exact List.Pairwise.imp (fun apart => by simpa using apart) (pairwise_gatherBy .nil items)

theorem firstOccurrences_of_nodup (distinct : items.Nodup) : firstOccurrences (· == ·) items = items := by
  rw [← gatherBy_nil transitive_beq]
  exact gatherBy_nil_of_pairwise (distinct.imp fun ne => by simpa using ne)

/-- Where equal items hold the same, an item that equals an earlier one adds nothing to what they hold. -/
theorem gatherBy_flatMap_congr {β : Type} {alike : β → β → Bool} {held : β → List α}
    (congr : ∀ b c, alike b c = true → held b = held c) (known : List α) (start more : List β) :
    gatherBy (· == ·) known ((gatherBy alike start more).flatMap held) =
      gatherBy (· == ·) known ((start ++ more).flatMap held) := by
  induction more generalizing start with
  | nil => rw [List.append_nil]; rfl
  | cons b more ih =>
    rw [gatherBy_cons]
    split
    case isTrue found =>
      obtain ⟨c, hc, hcb⟩ := List.any_eq_true.mp found
      have there : held b ⊆ gatherBy (· == ·) known (start.flatMap held) := by
        intro a ha
        rw [← congr c b hcb] at ha
        exact mem_gatherBy_beq.mpr (.inr (List.mem_flatMap.mpr ⟨c, hc, ha⟩))
      rw [ih, List.flatMap_append, List.flatMap_append, List.flatMap_cons, gatherBy_append,
        gatherBy_append, gatherBy_append, gatherBy_of_subset there]
    case isFalse => rw [ih, List.append_assoc, List.singleton_append]

end Equality

end StubInference
