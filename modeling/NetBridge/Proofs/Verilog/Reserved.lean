import NetBridge.Proofs.Verilog.Identifier

/-! # Reserved words

The generator keeps away from some keywords of Verilog-2001, and a number after an
underscore makes none. So a name that it hands out can only be reserved if a preferred name
is, and is none of the keywords that it knows. -/
namespace NetBridge.Verilog

/-- The keywords of IEEE 1364-2001, which are no identifiers. -/
def reservedWords : List String :=
  ["always", "and", "assign", "automatic", "begin", "buf", "bufif0", "bufif1", "case", "casex",
    "casez", "cell", "cmos", "config", "deassign", "default", "defparam", "design", "disable",
    "edge", "else", "end", "endcase", "endconfig", "endfunction", "endgenerate", "endmodule",
    "endprimitive", "endspecify", "endtable", "endtask", "event", "for", "force", "forever",
    "fork", "function", "generate", "genvar", "highz0", "highz1", "if", "ifnone", "incdir",
    "include", "initial", "inout", "input", "instance", "integer", "join", "large", "liblist",
    "library", "localparam", "macromodule", "medium", "module", "nand", "negedge", "nmos", "nor",
    "noshowcancelled", "not", "notif0", "notif1", "or", "output", "parameter", "pmos", "posedge",
    "primitive", "pull0", "pull1", "pulldown", "pullup", "pulsestyle_ondetect",
    "pulsestyle_onevent", "rcmos", "real", "realtime", "reg", "release", "repeat", "rnmos",
    "rpmos", "rtran", "rtranif0", "rtranif1", "scalared", "showcancelled", "signed", "small",
    "specify", "specparam", "strong0", "strong1", "supply0", "supply1", "table", "task", "time",
    "tran", "tranif0", "tranif1", "tri", "tri0", "tri1", "triand", "trior", "trireg", "unsigned",
    "use", "vectored", "wait", "wand", "weak0", "weak1", "while", "wire", "wor", "xnor", "xor"]

/-- The pattern `[A-Za-z_][A-Za-z0-9_]*`. -/
def matchesPattern (n : String) : Bool :=
  (n.toList.head?.any fun c => !c.isDigit) && n.toList.all isNameChar

/-- A plain identifier of Verilog-2001. -/
def isLegal (n : String) : Bool := matchesPattern n && !reservedWords.contains n

/-- A reserved word that the generator takes for a name. -/
def Unlisted (n : String) : Prop := n ∈ reservedWords ∧ n ∉ keywords

instance (n : String) : Decidable (Unlisted n) := inferInstanceAs (Decidable (_ ∧ _))

theorem isName_iff_matchesPattern {n : String} :
    isName n = true ↔ matchesPattern n = true ∧ n ∉ keywords := by
  rw [isName, ← matchesPattern, Bool.and_eq_true, Bool.not_eq_true', ← Bool.not_eq_true,
    List.contains_iff_mem]

theorem isLegal_iff_of_isName {n : String} (h : isName n = true) :
    isLegal n = true ↔ n ∉ reservedWords := by
  rw [isLegal, (isName_iff_matchesPattern.mp h).1, Bool.true_and, Bool.not_eq_true',
    ← Bool.not_eq_true, List.contains_iff_mem]

/-- The word does not end with an underscore, and not with a digit if it has one. -/
def endsApart (k : String) : Bool :=
  k.toList.getLast?.all fun c => c != '_' && (!c.isDigit || !k.toList.contains '_')

theorem reservedWords_endApart : reservedWords.all endsApart = true := by decide +kernel

theorem reservedWords_end : ∀ k ∈ reservedWords, ∀ c ∈ k.toList.getLast?,
    c ≠ '_' ∧ (c.isDigit = true → '_' ∉ k.toList) := by
  intro k hk c hc
  have apart := List.all_eq_true.mp reservedWords_endApart k hk
  rw [endsApart, Option.mem_def.mp hc] at apart
  obtain ⟨other, free⟩ : c ≠ '_' ∧ (c.isDigit = false ∨ '_' ∉ k.toList) := by simpa using apart
  exact ⟨other, fun digit => free.resolve_left (by simp [digit])⟩

theorem candidate_not_reserved (base : String) (n : Nat) : candidate base n ∉ reservedWords := by
  intro h
  have digits : (toString n).toList = Nat.toDigits 10 n := by
    rw [Nat.toString_eq_ofList_toDigits, String.toList_ofList]
  have list : (candidate base n).toList = base.toList ++ '_' :: Nat.toDigits 10 n := by
    have parts : candidate base n = base ++ "_" ++ toString n := rfl
    rw [parts, String.toList_append, String.toList_append, digits, List.append_assoc]
    rfl
  obtain ⟨c, hc⟩ : ∃ c, (Nat.toDigits 10 n).getLast? = some c := by
    rw [← Option.isSome_iff_exists, List.getLast?_isSome]
    exact Nat.toDigits_ne_nil
  have last : c ∈ (candidate base n).toList.getLast? := by
    rw [list, List.getLast?_append, List.getLast?_cons, hc]
    rfl
  have digit : c.isDigit = true :=
    Nat.isDigit_of_mem_toDigits (by decide) (by decide) (List.mem_of_getLast? hc)
  exact (reservedWords_end _ h c last).2 digit (by rw [list]; simp)

/-- The preferred name with illegal characters replaced. -/
def cleaned (preferred : String) : String := String.ofList (cleanChars preferred)

/-- A keyword that the generator knows gets an underscore, and so is not reserved. -/
theorem legalName_reserved_iff {preferred : String} :
    legalName preferred ∈ reservedWords ↔ Unlisted (cleaned preferred) := by
  rw [legalName, ← cleaned]
  split
  · rename_i known
    have notReserved : cleaned preferred ++ "_" ∉ reservedWords := by
      intro h
      exact (reservedWords_end _ h '_' (by simp)).1 rfl
    exact iff_of_false notReserved fun h => h.2 (List.contains_iff_mem.mp known)
  · rename_i new
    exact ⟨fun h => ⟨h, fun hk => new (List.contains_iff_mem.mpr hk)⟩, And.left⟩

/-- A name is reserved if the cleaned preferred name is, and nobody has it. -/
theorem freshName_reserved {taken : List String} {preferred : String}
    (h : freshName taken preferred ∈ reservedWords) : Unlisted (cleaned preferred) := by
  rcases (freshName_isFirstFree taken preferred).first with same | ⟨-, n, -, same, -⟩
  · exact legalName_reserved_iff.mp (same ▸ h)
  · exact absurd (same ▸ h) (candidate_not_reserved _ n)

/-- Afterwards the cleaned preferred name is in use, here or before. -/
theorem legalName_mem_freshName (taken : List String) (preferred : String) :
    legalName preferred ∈ freshName taken preferred :: taken := by
  rcases (freshName_isFirstFree taken preferred).first with same | ⟨used, -⟩
  · exact same ▸ List.mem_cons_self
  · exact List.mem_cons_of_mem _ used

end NetBridge.Verilog
