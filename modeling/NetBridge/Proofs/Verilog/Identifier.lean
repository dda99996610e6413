import Mathlib.Data.List.Nodup
import Mathlib.Data.List.Perm.Subperm
import NetBridge.Verilog.Module

/-! # Fresh names

The numbered candidates for a base are pairwise different, so among one more of them
than there are taken names, one is free. All of them are identifiers. -/
namespace NetBridge.Verilog

/-- A number is read back from its decimal digits. -/
theorem decimal_injective {i j : Nat} (h : toString i = toString j) : i = j := by
  rw [Nat.toString_eq_ofList_toDigits, Nat.toString_eq_ofList_toDigits] at h
  have digits : Nat.toDigits 10 i = Nat.toDigits 10 j := String.ofList_injective h
  calc
    i = Nat.ofDigitChars 10 (Nat.toDigits 10 i) 0 := Nat.ofDigitChars_ten_toDigits.symm
    _ = j := by rw [digits, Nat.ofDigitChars_ten_toDigits]

/-- The candidate of a base with a number. -/
def candidate (base : String) (n : Nat) : String := s!"{base}_{n}"

theorem candidate_injective (base : String) {i j : Nat} (h : candidate base i = candidate base j) :
    i = j :=
  decimal_injective ((String.append_right_inj _).mp h)

/-- The search passes over taken candidates only. If it ends on one, it has tried all
that it could. -/
theorem freshSuffix_eq (taken : List String) (base : String) (fuel start : Nat) :
    ∃ n, start ≤ n ∧ freshSuffix taken base fuel start = candidate base n ∧
      (∀ k, start ≤ k → k < n → candidate base k ∈ taken) ∧
      (candidate base n ∈ taken → n = start + fuel) := by
  induction fuel generalizing start with
  | zero =>
    exact ⟨start, Nat.le_refl _, rfl, fun k hlo hhi => absurd hhi (Nat.not_lt.mpr hlo), fun _ => rfl⟩
  | succ fuel ih =>
    have step : freshSuffix taken base (fuel + 1) start = if taken.contains (candidate base start)
        then freshSuffix taken base fuel (start + 1) else candidate base start := rfl
    rw [step]
    by_cases hstart : candidate base start ∈ taken
    · obtain ⟨n, hn, found, passed, last⟩ := ih (start + 1)
      rw [if_pos (List.contains_iff_mem.mpr hstart)]
      refine ⟨n, by omega, found, fun k hlo hhi => ?_, fun h => by have := last h; omega⟩
      rcases Nat.eq_or_lt_of_le hlo with rfl | hlt
      · exact hstart
      · exact passed k hlt hhi
    · rw [if_neg (fun hc => hstart (List.contains_iff_mem.mp hc))]
      exact ⟨start, Nat.le_refl _, rfl, fun k hlo hhi => absurd hhi (Nat.not_lt.mpr hlo),
        fun h => absurd h hstart⟩

theorem freshSuffix_not_mem (taken : List String) (base : String) (start : Nat) :
    freshSuffix taken base taken.length start ∉ taken := by
  intro h
  obtain ⟨n, -, found, passed, last⟩ := freshSuffix_eq taken base taken.length start
  rw [found] at h
  have all : n = start + taken.length := last h
  let tried := (List.range (taken.length + 1)).map fun i => candidate base (start + i)
  have nodup : tried.Nodup := by
    refine List.Nodup.map ?_ List.nodup_range
    intro i j hij
    have := candidate_injective base hij
    omega
  have sub : tried ⊆ taken := by
    intro name hname
    obtain ⟨i, hi, rfl⟩ := List.mem_map.mp hname
    have := List.mem_range.mp hi
    by_cases tip : start + i = n
    · exact tip ▸ h
    · exact passed _ (by omega) (by omega)
  have short := (List.subperm_of_subset nodup sub).length_le
  simp only [tried, List.length_map, List.length_range] at short
  omega

/-- The generator never hands out a name twice. -/
theorem freshName_not_mem (taken : List String) (preferred : String) :
    freshName taken preferred ∉ taken := by
  simp only [freshName]
  split
  · exact freshSuffix_not_mem taken (legalName preferred) 1
  · rename_i free
    exact fun h => free (List.contains_iff_mem.mpr h)

/-- The name is free. It is the cleaned preferred name, or if that is taken the candidate
with the first number from 1 on that is free. -/
structure IsFirstFree (taken : List String) (preferred name : String) : Prop where
  free : name ∉ taken
  first : name = legalName preferred ∨ legalName preferred ∈ taken ∧ ∃ n, 1 ≤ n ∧
    name = candidate (legalName preferred) n ∧
    ∀ k, 1 ≤ k → k < n → candidate (legalName preferred) k ∈ taken

/-- The search for a name ends, whatever is taken. -/
theorem freshName_isFirstFree (taken : List String) (preferred : String) :
    IsFirstFree taken preferred (freshName taken preferred) := by
  refine ⟨freshName_not_mem taken preferred, ?_⟩
  rw [freshName]
  split
  · rename_i used
    obtain ⟨n, positive, found, passed, -⟩ := freshSuffix_eq taken (legalName preferred) taken.length 1
    exact .inr ⟨List.contains_iff_mem.mp used, n, positive, found, passed⟩
  · exact .inl rfl

def isIdentifierChar (c : Char) : Bool := isNameChar c || c == '$'

/-- An identifier of the language may also have dollar signs, but not at the front. -/
def isIdentifier (n : String) : Bool :=
  (n.toList.head?.any fun c => isNameChar c && !c.isDigit) && n.toList.all isIdentifierChar &&
    !keywords.contains n

/-- Letters, digits and underscores, no digit at the front, and no keyword. -/
def isName (n : String) : Bool :=
  (n.toList.head?.any fun c => !c.isDigit) && n.toList.all isNameChar && !keywords.contains n

theorem isName_iff {n : String} : isName n = true ↔
    (∃ c rest, n.toList = c :: rest ∧ c.isDigit = false) ∧
      (∀ c ∈ n.toList, isNameChar c = true) ∧ n ∉ keywords := by
  simp only [isName, Bool.and_eq_true, Bool.not_eq_true', List.all_eq_true, and_assoc,
    ← Bool.not_eq_true, List.contains_iff_mem]
  refine and_congr_left fun _ => ?_
  cases n.toList with
  | nil => simp
  | cons c rest => simp

theorem cleanChars_spec (preferred : String) :
    (∃ c rest, cleanChars preferred = c :: rest ∧ c.isDigit = false) ∧
      ∀ c ∈ cleanChars preferred, isNameChar c = true := by
  have mapped : ∀ c ∈ preferred.toList.map (fun c => if isNameChar c then c else '_'),
      isNameChar c = true := by
    intro c hc
    obtain ⟨d, -, rfl⟩ := List.mem_map.mp hc
    split
    · assumption
    · rfl
  rw [cleanChars]
  cases h : preferred.toList.map (fun c => if isNameChar c then c else '_') with
  | nil => exact ⟨⟨'_', [], rfl, rfl⟩, by simp [isNameChar]⟩
  | cons c rest =>
    rw [h] at mapped
    by_cases hd : c.isDigit = true
    · refine ⟨⟨'_', c :: rest, by simp [hd], rfl⟩, ?_⟩
      intro x hx
      simp only [hd, if_true] at hx
      rcases List.mem_cons.mp hx with rfl | hx
      · rfl
      · exact mapped x hx
    · simp only [hd]
      exact ⟨⟨c, rest, rfl, by simpa using hd⟩, mapped⟩

theorem underscore_notMem_keywords : ∀ k ∈ keywords, '_' ∉ k.toList := by
  simp [keywords]

/-- What follows an identifier after an underscore makes it no keyword. -/
theorem isName_append {base suffix : String}
    (start : ∃ c rest, base.toList = c :: rest ∧ c.isDigit = false)
    (chars : ∀ c ∈ base.toList, isNameChar c = true)
    (more : ∀ c ∈ suffix.toList, isNameChar c = true) : isName (base ++ "_" ++ suffix) = true := by
  obtain ⟨c, rest, hbase, hc⟩ := start
  have list : (base ++ "_" ++ suffix).toList = base.toList ++ '_' :: suffix.toList := by simp
  rw [isName_iff, list]
  refine ⟨⟨c, rest ++ '_' :: suffix.toList, by rw [hbase]; rfl, hc⟩, ?_, ?_⟩
  · intro x hx
    rcases List.mem_append.mp hx with hx | hx
    · exact chars x hx
    · rcases List.mem_cons.mp hx with rfl | hx
      · rfl
      · exact more x hx
  · intro hk
    exact underscore_notMem_keywords _ hk (by rw [list]; simp)

theorem legalName_isName (preferred : String) : isName (legalName preferred) = true := by
  obtain ⟨start, chars⟩ := cleanChars_spec preferred
  have list : (String.ofList (cleanChars preferred)).toList = cleanChars preferred :=
    String.toList_ofList
  rw [← list] at start chars
  rw [legalName]
  split
  · have none : ∀ c ∈ "".toList, isNameChar c = true := by simp
    have suffixed := isName_append start chars none
    rwa [String.append_empty] at suffixed
  · rename_i hk
    exact isName_iff.mpr ⟨start, chars, fun h => hk (List.contains_iff_mem.mpr h)⟩

theorem candidate_isName {base : String} (h : isName base = true) (n : Nat) :
    isName (candidate base n) = true := by
  obtain ⟨start, chars, -⟩ := isName_iff.mp h
  refine isName_append start chars fun c hc => ?_
  have digit : c.isDigit = true := by
    rw [Nat.toString_eq_ofList_toDigits, String.toList_ofList] at hc
    exact Nat.isDigit_of_mem_toDigits (by decide) (by decide) hc
  simp [isNameChar, Char.isAlphanum, digit]

theorem freshName_isName (taken : List String) (preferred : String) :
    isName (freshName taken preferred) = true := by
  have base := legalName_isName preferred
  rcases (freshName_isFirstFree taken preferred).first with same | ⟨-, n, -, same, -⟩
  · rwa [same]
  · rw [same]
    exact candidate_isName base n

end NetBridge.Verilog
