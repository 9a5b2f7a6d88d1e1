import Mathlib.Data.List.Basic
import Clausal.Proofs.Define

/-!
# Capitalized names

What the tables of upper case amount to. What upper case begins with is its own upper case
(`upcase_head`), so that a capitalized name stays when it is capitalized again
(`capitalize_capitalize`); and upper case brings no blank into a name (`is_word_capitalize`).
-/

namespace Clausal.Text

variable {c : Char} {run : CaseRun} {code k : Nat} {codes : List Nat} {s : String}

/-- A code point that is no character becomes the character zero. -/
theorem to_nat_of_nat (k : Nat) : (Char.ofNat k).toNat = k ∨ (Char.ofNat k).toNat = 0 := by
  by_cases hvalid : k.isValidChar
  · rw [Char.ofNat, dif_pos hvalid]
    exact .inl rfl
  · rw [Char.ofNat, dif_neg hvalid]
    exact .inr rfl

/-! ## Capitals have no other upper case -/

/-- The distances of the letters on a run from its first one. -/
def CaseRun.offsets (run : CaseRun) : List Nat :=
  (List.range (run.last - run.first + 1)).filter (· % run.step == 0)

/-- The code points of the letters that have an upper case of their own. -/
def casedCodes : List Nat :=
  caseRuns.flatMap (fun run => run.offsets.map (run.first + ·)) ++ longCapitals.map (·.1)

/-- The code points that upper case begins with, and zero, which stands for those that are no
character. -/
def capitalCodes : List Nat :=
  0 :: caseRuns.flatMap (fun run => run.offsets.map (run.image + ·)) ++
    longCapitals.filterMap (·.2.head?)

theorem covers_range (h : run.covers code = true) : run.first ≤ code ∧ code ≤ run.last := by
  simp only [CaseRun.covers, Bool.and_eq_true, decide_eq_true_eq] at h
  exact h.1

theorem offset_mem (h : run.covers code = true) : code - run.first ∈ run.offsets := by
  have hrange := covers_range h
  rw [CaseRun.covers, Bool.and_eq_true] at h
  exact List.mem_filter.2 ⟨List.mem_range.2 (by omega), h.2⟩

theorem code_mem (h : run.covers code = true) (hrun : run ∈ caseRuns) : code ∈ casedCodes := by
  refine List.mem_append_left _ (List.mem_flatMap.2 ⟨run, hrun, List.mem_map.2 ?_⟩)
  exact ⟨_, offset_mem h, Nat.add_sub_of_le (covers_range h).1⟩

/-- The number whose binary digits tell which codes are listed. -/
def bitmap (codes : List Nat) : Nat := codes.foldr (fun k bits => 1 <<< k ||| bits) 0

theorem test_bit_bitmap : (bitmap codes).testBit k = true ↔ k ∈ codes := by
  induction codes with
  | nil => simp [bitmap]
  | cons j codes ih =>
      rw [bitmap, List.foldr_cons, ← bitmap, Nat.testBit_or, Nat.one_shiftLeft,
        Nat.testBit_two_pow, Bool.or_eq_true, decide_eq_true_eq, ih, List.mem_cons, eq_comm]

theorem capital_code_not_cased (h : k ∈ capitalCodes) : k ∉ casedCodes := by
  -- some thousand codes are listed on each side, so they are compared all at once
  have hdisjoint : bitmap capitalCodes &&& bitmap casedCodes = 0 := by decide +kernel
  intro hcased
  have hbit : (bitmap capitalCodes &&& bitmap casedCodes).testBit k = true := by
    rw [Nat.testBit_and, test_bit_bitmap.2 h, test_bit_bitmap.2 hcased, Bool.and_self]
  rw [hdisjoint, Nat.zero_testBit] at hbit
  cases hbit

/-- A character that the tables do not list is its own upper case. -/
theorem upcase_eq_self (h : c.toNat ∉ casedCodes) : upcase c = [c] := by
  have hletters : longCapitals.find? (·.1 == c.toNat) = none :=
    List.find?_eq_none.2 fun letter hletter heq =>
      h (List.mem_append_right _ (List.mem_map.2 ⟨letter, hletter, by simpa using heq⟩))
  have hruns : caseRuns.find? (·.covers c.toNat) = none :=
    List.find?_eq_none.2 fun run hrun hcovers => h (code_mem hcovers hrun)
  rw [upcase, hletters, hruns]

theorem upcase_of_capital_code (h : k ∈ capitalCodes) : upcase (Char.ofNat k) = [Char.ofNat k] := by
  refine upcase_eq_self ?_
  rcases to_nat_of_nat k with hcode | hcode <;> rw [hcode]
  · exact capital_code_not_cased h
  · exact capital_code_not_cased (List.mem_cons_self ..)

/-- Upper case begins with a character that is its own upper case. -/
theorem upcase_head (c : Char) : ∃ d ds, upcase c = d :: ds ∧ upcase d = [d] := by
  cases hletter : longCapitals.find? (·.1 == c.toNat) with
  | some letter =>
      have hmem := List.mem_of_find?_eq_some hletter
      have hupcase : upcase c = letter.2.map Char.ofNat := by rw [upcase, hletter]
      obtain ⟨k, ks, hcodes⟩ := List.exists_cons_of_ne_nil fun hnil =>
        upcase_ne_nil c (hupcase.trans (congrArg _ hnil))
      rw [hupcase, hcodes]
      refine ⟨_, _, List.map_cons .., upcase_of_capital_code (List.mem_append_right _ ?_)⟩
      exact List.mem_filterMap.2 ⟨letter, hmem, by rw [hcodes, List.head?_cons]⟩
  | none =>
      cases hrun : caseRuns.find? (·.covers c.toNat) with
      | some run =>
          have hmem := List.mem_of_find?_eq_some hrun
          have hcovers : run.covers c.toNat = true := by simpa using List.find?_some hrun
          refine ⟨Char.ofNat (run.image + (c.toNat - run.first)), [], by rw [upcase, hletter, hrun],
            upcase_of_capital_code (List.mem_append_left _ (List.mem_cons_of_mem _ ?_))⟩
          exact List.mem_flatMap.2 ⟨run, hmem, List.mem_map_of_mem (offset_mem hcovers)⟩
      | none =>
          have hself : upcase c = [c] := by rw [upcase, hletter, hrun]
          exact ⟨c, [], hself, hself⟩

/-- A capitalized name stays when it is capitalized again. -/
theorem capitalize_capitalize (s : String) : capitalize (capitalize s) = capitalize s := by
  unfold capitalize
  cases s.toList with
  | nil => rfl
  | cons c cs =>
      obtain ⟨d, ds, hupcase, hcapital⟩ := upcase_head c
      simp [hupcase, hcapital]

/-! ## Capitals of words -/

theorem not_blank_of_nat (h : ∀ blanks ∈ blankRuns, k < blanks.1 ∨ blanks.2 < k) :
    isBlank (Char.ofNat k) = false := by
  have hpositive : ∀ blanks ∈ blankRuns, 0 < blanks.1 := by decide
  simp only [isBlank, List.any_eq_false, Bool.and_eq_true, decide_eq_true_eq]
  rintro blanks hblanks ⟨hfirst, hlast⟩
  have hclear := h blanks hblanks
  have hfirst' := hpositive blanks hblanks
  rcases to_nat_of_nat k with hcode | hcode <;> omega

/-- The upper case of a character that is no blank holds no blank. -/
theorem not_blank_upcase (h : isBlank c = false) : ∀ d ∈ upcase c, isBlank d = false := by
  have hletters : ∀ letter ∈ longCapitals, ∀ k ∈ letter.2, ∀ blanks ∈ blankRuns,
      k < blanks.1 ∨ blanks.2 < k := by decide +kernel
  have hruns : ∀ run ∈ caseRuns, ∀ blanks ∈ blankRuns,
      run.image + (run.last - run.first) < blanks.1 ∨ blanks.2 < run.image := by decide +kernel
  unfold upcase
  split
  · next letter image hletter =>
      intro d hd
      obtain ⟨k, hk, rfl⟩ := List.mem_map.1 hd
      exact not_blank_of_nat (hletters _ (List.mem_of_find?_eq_some hletter) k hk)
  · split
    · next run hrun =>
        refine List.forall_mem_singleton.2 (not_blank_of_nat fun blanks hblanks => ?_)
        have hcovers : run.covers c.toNat = true := by simpa using List.find?_some hrun
        have hrange := covers_range hcovers
        have hclear := hruns run (List.mem_of_find?_eq_some hrun) blanks hblanks
        omega
    · exact List.forall_mem_singleton.2 h

/-- The capital form of a word is a word. -/
theorem is_word_capitalize (h : isWord s = true) : isWord (capitalize s) = true := by
  obtain ⟨hnonempty, hblank⟩ := is_word_iff.1 h
  refine is_word_iff.2 ⟨capitalize_ne_empty hnonempty, fun d hd => ?_⟩
  unfold capitalize at hd
  split at hd
  · next hnil => exact absurd (String.toList_eq_nil_iff.1 hnil) hnonempty
  · next c cs hcons =>
      obtain ⟨hc, hcs⟩ := List.forall_mem_cons.1 (hcons ▸ hblank)
      rw [String.toList_ofList, List.mem_append] at hd
      exact hd.elim (not_blank_upcase hc d) (hcs d)

end Clausal.Text
