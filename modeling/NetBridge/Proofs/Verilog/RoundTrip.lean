import NetBridge.Proofs.Verilog.Drivers
import NetBridge.Proofs.Verilog.Reader

/-! # Reading what was printed

What the printer writes is read back, if names are identifiers. The text keeps of a word
the bits of its shape, and of a net that it has no range. -/
namespace NetBridge.Verilog

namespace Expr

mutual

/-- The expression that the text of an expression says. -/
def normal : Expr → Expr
  | name n => name n
  | literal value shape => literal (shape.truncate value) shape
  | unary op operand => unary op (normal operand)
  | binary op left right => binary op (normal left) (normal right)
  | bitSelect base index => bitSelect base index
  | partSelect base high low => partSelect base high low
  | concat parts => concat (normalParts parts)
  | conditional condition whenTrue whenFalse =>
    conditional (normal condition) (normal whenTrue) (normal whenFalse)

def normalParts : List Expr → List Expr
  | [] => []
  | e :: rest => normal e :: normalParts rest

end

mutual

theorem names_normal (e : Expr) : e.normal.names = e.names := by
  cases e with
  | name n => rfl
  | literal value shape => rfl
  | unary op operand => exact names_normal operand
  | binary op left right =>
    rw [normal, names, names, names_normal left, names_normal right]
  | bitSelect base index => rfl
  | partSelect base high low => rfl
  | concat parts => exact namesOfParts_normal parts
  | conditional condition whenTrue whenFalse =>
    rw [normal, names, names, names_normal condition, names_normal whenTrue,
      names_normal whenFalse]

theorem namesOfParts_normal (parts : List Expr) :
    namesOfParts (normalParts parts) = namesOfParts parts := by
  cases parts with
  | nil => rfl
  | cons e rest =>
    rw [normalParts, namesOfParts, namesOfParts, names_normal e, namesOfParts_normal rest]

end

end Expr

namespace Module

/-- A declaration without a range is one of a single bit. -/
def declaredShape (s : Shape) : Shape := ⟨max s.width 1, s.signed⟩

def normalPort (p : Port) : Port := { p with shape := declaredShape p.shape }

def normalNet : Net → Net
  | .wire shape name => .wire (declaredShape shape) name
  | .reg shape name value => .reg (declaredShape shape) name (shape.truncate value)

def normalAssign (a : Assign) : Assign := { a with value := a.value.normal }

def normalReset (r : Reset) : Reset := { r with value := r.shape.truncate r.value }

def normalProcess (p : AlwaysBlock) : AlwaysBlock :=
  { p with updates := p.updates.map normalAssign, resets := p.resets.map normalReset }

/-- The module that the text of a module says. -/
def normal (m : Module) : Module where
  name := m.name
  ports := m.ports.map normalPort
  nets := m.nets.map normalNet
  assigns := m.assigns.map normalAssign
  processes := m.processes.map normalProcess

/-- All names are identifiers. -/
structure Legal (m : Module) : Prop where
  name : isIdentifier m.name = true
  declared : ∀ n ∈ m.declared, isName n = true
  names : ∀ n ∈ m.names, isName n = true

theorem names_normalAssign (a : Assign) : (normalAssign a).names = a.names :=
  congrArg (a.target :: ·) a.value.names_normal

theorem targets_normalProcess (p : AlwaysBlock) : (normalProcess p).targets = p.targets := by
  simp [AlwaysBlock.targets, normalProcess, normalAssign, Function.comp_def]

theorem names_normalProcess (p : AlwaysBlock) : (normalProcess p).names = p.names := by
  simp [AlwaysBlock.names, normalProcess, normalReset, List.flatMap_map, names_normalAssign,
    Function.comp_def]

theorem names_normal (m : Module) : m.normal.names = m.names := by
  simp [names, normal, List.flatMap_map, names_normalAssign, names_normalProcess]

theorem declared_normal (m : Module) : m.normal.declared = m.declared := by
  have net : ∀ n : Net, (normalNet n).name = n.name := fun n => by cases n <;> rfl
  simp [declared, normal, normalPort, Function.comp_def, net]

theorem inputs_normal (m : Module) : m.normal.inputs = m.inputs := by
  rw [inputs, inputs, normal, List.filter_map, List.map_map]
  rfl

theorem assignsOf_normal (m : Module) (n : String) : m.normal.assignsOf n = m.assignsOf n := by
  simp [assignsOf, normal, normalAssign, Function.comp_def]

theorem processesOf_normal (m : Module) (n : String) :
    m.normal.processesOf n = m.processesOf n := by
  simp [processesOf, normal, List.countP_map, Function.comp_def, targets_normalProcess]

theorem WellDriven.normal {m : Module} (h : m.WellDriven) : m.normal.WellDriven := by
  refine ⟨?_, ?_, ?_, ?_⟩
  · rw [names_normal, declared_normal]
    exact h.closed
  · intro n
    rw [inputs_normal, assignsOf_normal, processesOf_normal]
    exact h.inputs n
  · intro n
    rw [declared_normal, inputs_normal, assignsOf_normal, processesOf_normal]
    exact h.driven n
  · intro p hp r hr
    obtain ⟨q, hq, rfl⟩ := List.mem_map.mp hp
    obtain ⟨s, hs, rfl⟩ := List.mem_map.mp hr
    rw [targets_normalProcess]
    exact h.resets q hq s hs

end Module

namespace Reader

theorem strip_eq_some {t cs rest : List Char} : strip t cs = some rest ↔ cs = t ++ rest := by
  induction t generalizing cs with
  | nil => simp [strip]
  | cons a ts ih =>
    cases cs with
    | nil => simp [strip]
    | cons c cs =>
      by_cases h : a = c
      · simp [strip, h, ih]
      · simp [strip, h, Ne.symm h]

theorem expect_eq_some {t : String} {cs rest : List Char} :
    expect t cs = some rest ↔ cs = t.toList ++ rest :=
  strip_eq_some

theorem expect_append (t : String) (rest : List Char) : expect t (t.toList ++ rest) = some rest :=
  expect_eq_some.mpr rfl

/-- The rest does not begin with a character of this kind. -/
def Ends (p : Char → Bool) (rest : List Char) : Prop := ∀ c ∈ rest.head?, p c = false

theorem Ends.mono {p q : Char → Bool} {rest : List Char} (h : Ends p rest)
    (sub : ∀ c, q c = true → p c = true) : Ends q rest := by
  intro c hc
  have hp := h c hc
  cases hq : q c with
  | false => rfl
  | true => rw [sub c hq] at hp; cases hp

theorem ends_text {p : Char → Bool} {t : String} (head : (t.toList.head?.any fun c => !p c) = true)
    (rest : List Char) : Ends p (t.toList ++ rest) := by
  intro c hc
  cases ht : t.toList with
  | nil => simp [ht] at head
  | cons a ts =>
    rw [ht] at hc
    obtain rfl : a = c := by simpa using hc
    simpa [ht] using head

theorem expect_of_ends {p : Char → Bool} {t : String} {rest : List Char}
    (head : t.toList.head?.any p = true) (ends : Ends p rest) : expect t rest = none := by
  cases h : expect t rest with
  | none => rfl
  | some r =>
    obtain rfl := expect_eq_some.mp h
    cases ht : t.toList with
    | nil => simp [ht] at head
    | cons a ts =>
      have hp : p a = true := by simpa [ht] using head
      have hf : p a = false := ends a (by simp [ht])
      rw [hp] at hf
      cases hf

theorem takeWhile_append {p : Char → Bool} {w rest : List Char} (hw : ∀ c ∈ w, p c = true)
    (ends : Ends p rest) : (w ++ rest).takeWhile p = w ∧ (w ++ rest).dropWhile p = rest := by
  rw [List.takeWhile_append_of_pos hw, List.dropWhile_append_of_pos hw]
  cases rest with
  | nil => simp
  | cons c cs =>
    have hc : p c = false := ends c rfl
    simp [hc]

theorem name_append {n : String} (h : isName n = true) {rest : List Char}
    (ends : Ends isNameChar rest) : name (n.toList ++ rest) = some (n, rest) := by
  obtain ⟨take, drop⟩ := takeWhile_append (isName_iff.mp h).2.1 ends
  have hw : word (n.toList ++ rest) = (n, rest) := by
    rw [word, take, drop, String.ofList_toList]
  simp [name, hw, h]

theorem identifier_append {n : String} (h : isIdentifier n = true) {rest : List Char}
    (ends : Ends isIdentifierChar rest) : identifier (n.toList ++ rest) = some (n, rest) := by
  have chars : ∀ c ∈ n.toList, isIdentifierChar c = true := by
    simp only [isIdentifier, Bool.and_eq_true, List.all_eq_true] at h
    exact h.1.2
  obtain ⟨take, drop⟩ := takeWhile_append chars ends
  rw [identifier, take, drop, String.ofList_toList, if_pos h]

theorem digitValue_digitChar : ∀ d < 16, digitValue (Nat.digitChar d) = d := by decide

theorem value_toDigits {base : Nat} (hlo : 1 < base) (hhi : base ≤ 16) (n : Nat) :
    value base (Nat.toDigits base n) = n := by
  induction n using Nat.strongRecOn with
  | ind n ih =>
    by_cases h : n < base
    · rw [Nat.toDigits_of_lt_base h]
      simp [value, digitValue_digitChar n (by omega)]
    · have hdiv : n / base < n := Nat.div_lt_self (by omega) hlo
      have hmod : n % base < base := Nat.mod_lt n (by omega)
      rw [Nat.toDigits_of_base_le hlo (by omega), value, List.foldl_append]
      have := ih (n / base) hdiv
      rw [value] at this
      rw [this]
      simp only [List.foldl_cons, List.foldl_nil, digitValue_digitChar _ (by omega : n % base < 16)]
      exact Nat.div_add_mod n base

theorem mem_toDigits {base : Nat} (hlo : 1 < base) {n : Nat} {c : Char}
    (h : c ∈ Nat.toDigits base n) : ∃ d < base, c = Nat.digitChar d := by
  induction n using Nat.strongRecOn with
  | ind n ih =>
    by_cases hn : n < base
    · rw [Nat.toDigits_of_lt_base hn, List.mem_singleton] at h
      exact ⟨n, hn, h⟩
    · rw [Nat.toDigits_of_base_le hlo (by omega)] at h
      rcases List.mem_append.mp h with h | h
      · exact ih (n / base) (Nat.div_lt_self (by omega) hlo) h
      · exact ⟨n % base, Nat.mod_lt n (by omega), List.mem_singleton.mp h⟩

theorem isHexDigit_digitChar : ∀ d < 16, isHexDigit (Nat.digitChar d) = true := by decide

theorem number_append {base : Nat} {isDigit : Char → Bool} (hlo : 1 < base) (hhi : base ≤ 16)
    (digits : ∀ d < base, isDigit (Nat.digitChar d) = true) (n : Nat) {rest : List Char}
    (ends : Ends isDigit rest) :
    number base isDigit (Nat.toDigits base n ++ rest) = some (n, rest) := by
  have all : ∀ c ∈ Nat.toDigits base n, isDigit c = true := by
    intro c hc
    obtain ⟨d, hd, rfl⟩ := mem_toDigits hlo hc
    exact digits d hd
  obtain ⟨take, drop⟩ := takeWhile_append all ends
  rw [number, take, drop]
  cases hd : Nat.toDigits base n with
  | nil => exact absurd hd Nat.toDigits_ne_nil
  | cons c cs =>
    rw [← hd]
    simp [value_toDigits hlo hhi]

theorem decimal_append (n : Nat) {rest : List Char} (ends : Ends Char.isDigit rest) :
    number 10 Char.isDigit ((toString n).toList ++ rest) = some (n, rest) := by
  rw [Nat.toString_eq_ofList_toDigits, String.toList_ofList]
  exact number_append (by decide) (by decide) (by decide) n ends

theorem hex_append (w : Word) {rest : List Char} (ends : Ends isHexDigit rest) :
    number 16 isHexDigit (w.hex.toList ++ rest) = some (w.toNat, rest) := by
  rw [Word.hex, String.toList_ofList]
  exact number_append (by decide) (by decide) isHexDigit_digitChar w.toNat ends

theorem isNameChar_of_isHexDigit {c : Char} (h : isHexDigit c = true) : isNameChar c = true := by
  simp only [isHexDigit, Bool.or_eq_true, List.contains_iff_mem, List.mem_cons,
    List.not_mem_nil, or_false] at h
  rcases h with h | rfl | rfl | rfl | rfl | rfl | rfl
  · simp [isNameChar, Char.isAlphanum, h]
  all_goals rfl

theorem literal_append (v : Word) (s : Shape) {rest : List Char} (ends : Ends isNameChar rest) :
    literal ((literalText v s).toList ++ rest) = some ((s.truncate v, s), rest) := by
  let digits := (Word.hex (s.truncate v)).toList ++ rest
  have hvalue : number 16 isHexDigit digits = some ((s.truncate v).toNat, rest) :=
    hex_append _ (ends.mono fun c => isNameChar_of_isHexDigit)
  have hwidth := fun cs => decimal_append s.width (ends_text (t := "'") rfl cs)
  cases hs : s.signed with
  | false =>
    have text : (literalText v s).toList ++ rest =
        (toString s.width).toList ++ ("'".toList ++ ("h".toList ++ digits)) := by
      simp [literalText, hs, digits]
    have unsigned : expect "s" ("h".toList ++ digits) = none :=
      expect_of_ends (p := (· == 's')) rfl (ends_text rfl _)
    rw [text, literal, hwidth]
    simp only [Option.bind_eq_bind, Option.bind_some, expect_append, unsigned, hvalue,
      Option.pure_def, BitVec.ofNat_toNat, BitVec.setWidth_eq, ← hs]
  | true =>
    have text : (literalText v s).toList ++ rest =
        (toString s.width).toList ++ ("'".toList ++ ("s".toList ++ ("h".toList ++ digits))) := by
      simp [literalText, hs, digits]
    rw [text, literal, hwidth]
    simp only [Option.bind_eq_bind, Option.bind_some, expect_append, hvalue,
      Option.pure_def, BitVec.ofNat_toNat, BitVec.setWidth_eq, ← hs]

section Chars

variable (rest : List Char)

theorem chars_unary (op : UnaryOp) (e : Expr) : (Expr.unary op e).text.toList ++ rest =
    "(".toList ++ (op.token.toList ++ (e.text.toList ++ (")".toList ++ rest))) := by
  simp [Expr.text]

theorem chars_binary (op : BinaryOp) (l r : Expr) : (Expr.binary op l r).text.toList ++ rest =
    "(".toList ++ (l.text.toList ++
      ((" " ++ op.token ++ " ").toList ++ (r.text.toList ++ (")".toList ++ rest)))) := by
  simp [Expr.text]

theorem chars_bitSelect (base : String) (i : Nat) : (Expr.bitSelect base i).text.toList ++ rest =
    base.toList ++ ("[".toList ++ ((toString i).toList ++ ("]".toList ++ rest))) := by
  have written : (Expr.bitSelect base i).text = base ++ "[" ++ toString i ++ "]" := rfl
  simp [written]

theorem chars_partSelect (base : String) (i j : Nat) :
    (Expr.partSelect base i j).text.toList ++ rest = base.toList ++ ("[".toList ++
      ((toString i).toList ++ (":".toList ++ ((toString j).toList ++ ("]".toList ++ rest))))) := by
  have written : (Expr.partSelect base i j).text =
      base ++ "[" ++ toString i ++ ":" ++ toString j ++ "]" := rfl
  simp [written]

theorem chars_concat (parts : List Expr) : (Expr.concat parts).text.toList ++ rest =
    "\x7b".toList ++ ((Expr.partsText parts).toList ++ ("\x7d".toList ++ rest)) := by
  simp [Expr.text]

theorem chars_conditional (c t f : Expr) : (Expr.conditional c t f).text.toList ++ rest =
    "(".toList ++ (c.text.toList ++ (" ? ".toList ++ (t.text.toList ++
      (" : ".toList ++ (f.text.toList ++ (")".toList ++ rest)))))) := by
  simp [Expr.text]

theorem chars_parts (e next : Expr) (others : List Expr) :
    (Expr.partsText (e :: next :: others)).toList ++ rest = e.text.toList ++
      (", ".toList ++ ((Expr.partsText (next :: others)).toList ++ rest)) := by
  simp [Expr.partsText]

end Chars

theorem unaryOp_append (op : UnaryOp) (rest : List Char) :
    unaryOp (op.token.toList ++ rest) = some (op, rest) := by
  cases op with
  | not => simp [unaryOp, oneOf, UnaryOp.token, expect, strip]
  | neg => simp [unaryOp, oneOf, UnaryOp.token, expect, strip]

theorem binaryOp_append (op : BinaryOp) (rest : List Char) :
    binaryOp ((" " ++ op.token ++ " ").toList ++ rest) = some (op, rest) := by
  cases op <;> simp [binaryOp, oneOf, BinaryOp.all, BinaryOp.token, expect, strip]

theorem binaryOp_no_condition (op : BinaryOp) (rest : List Char) :
    expect " ? " ((" " ++ op.token ++ " ").toList ++ rest) = none := by
  cases op <;> simp [BinaryOp.token, expect, strip]

/-- The rest does not carry on a name or a selection. -/
abbrev Stops (rest : List Char) : Prop := Ends (fun c => isNameChar c || c == '[') rest

theorem Stops.name {rest : List Char} (h : Stops rest) : Ends isNameChar rest :=
  h.mono fun c hc => by simp [hc]

theorem selection_name {n : String} (h : isName n = true) {rest : List Char} (stops : Stops rest) :
    selection (n.toList ++ rest) = some (.name n, rest) := by
  have none : expect "[" rest = none := expect_of_ends rfl stops
  simp [selection, name_append h stops.name, none]

theorem selection_bit {n : String} (h : isName n = true) (i : Nat) (rest : List Char) :
    selection ((Expr.bitSelect n i).text.toList ++ rest) = some (.bitSelect n i, rest) := by
  have index := decimal_append i (ends_text (t := "]") rfl rest)
  have noRange : expect ":" ("]".toList ++ rest) = none :=
    expect_of_ends (p := (· == ':')) rfl (ends_text rfl rest)
  rw [chars_bitSelect, selection, name_append h (ends_text rfl _)]
  simp only [Option.bind_eq_bind, Option.bind_some, expect_append, index, noRange, Option.pure_def]

theorem selection_part {n : String} (h : isName n = true) (i j : Nat) (rest : List Char) :
    selection ((Expr.partSelect n i j).text.toList ++ rest) = some (.partSelect n i j, rest) := by
  have high := decimal_append i
    (ends_text (t := ":") rfl ((toString j).toList ++ ("]".toList ++ rest)))
  have low := decimal_append j (ends_text (t := "]") rfl rest)
  rw [chars_partSelect, selection, name_append h (ends_text rfl _)]
  simp only [Option.bind_eq_bind, Option.bind_some, expect_append, high, low, Option.pure_def]

theorem ends_name {p : Char → Bool} {n : String} (h : isName n = true) (rest : List Char)
    (hp : ∀ c, isNameChar c = true → p c = false) : Ends p (n.toList ++ rest) := by
  obtain ⟨⟨c, cs, hlist, -⟩, chars, -⟩ := isName_iff.mp h
  intro d hd
  rw [hlist] at hd chars
  obtain rfl : c = d := by simpa using hd
  exact hp c (chars c List.mem_cons_self)

theorem isNameChar_ne {c d : Char} (hc : isNameChar c = true) (hd : isNameChar d = false) :
    (c == d) = false := by
  rw [beq_eq_false_iff_ne]
  rintro rfl
  rw [hc] at hd
  cases hd

theorem isNameChar_of_isDigit {c : Char} (h : c.isDigit = true) : isNameChar c = true := by
  simp [isNameChar, Char.isAlphanum, h]

theorem ends_literal {p : Char → Bool} (v : Word) (s : Shape) (rest : List Char)
    (hp : ∀ c, isNameChar c = true → p c = false) : Ends p ((literalText v s).toList ++ rest) := by
  have digits : ∀ c ∈ (toString s.width).toList, isNameChar c = true := by
    intro c hc
    rw [Nat.toString_eq_ofList_toDigits, String.toList_ofList] at hc
    exact isNameChar_of_isDigit (Nat.isDigit_of_mem_toDigits (by decide) (by decide) hc)
  have nonempty : (toString s.width).toList ≠ [] := by simp
  intro d hd
  rw [literalText, String.toList_append, String.toList_append] at hd
  cases hw : (toString s.width).toList with
  | nil => exact absurd hw nonempty
  | cons c cs =>
    rw [hw] at hd digits
    obtain rfl : c = d := by simpa using hd
    exact hp c (digits c List.mem_cons_self)

/-- The characters that no expression begins with. -/
def neverFirst (c : Char) : Bool := ['~', '-', '\x7d'].contains c

theorem neverFirst_of_isNameChar {c : Char} (h : isNameChar c = true) : neverFirst c = false := by
  simp [neverFirst, beq_eq_false_iff_ne.mp (isNameChar_ne h (d := '~') rfl),
    beq_eq_false_iff_ne.mp (isNameChar_ne h (d := '-') rfl),
    beq_eq_false_iff_ne.mp (isNameChar_ne h (d := '\x7d') rfl)]

theorem ends_expr {e : Expr} (legal : ∀ n ∈ e.names, isName n = true) (rest : List Char) :
    Ends neverFirst (e.text.toList ++ rest) := by
  cases e with
  | name n => exact ends_name (legal n (by simp [Expr.names])) rest fun c => neverFirst_of_isNameChar
  | literal v s => exact ends_literal v s rest fun c => neverFirst_of_isNameChar
  | unary op operand =>
    rw [chars_unary]
    exact ends_text rfl _
  | binary op left right =>
    rw [chars_binary]
    exact ends_text rfl _
  | bitSelect base index =>
    rw [chars_bitSelect]
    exact ends_name (legal base (by simp [Expr.names])) _ fun c => neverFirst_of_isNameChar
  | partSelect base high low =>
    rw [chars_partSelect]
    exact ends_name (legal base (by simp [Expr.names])) _ fun c => neverFirst_of_isNameChar
  | concat parts =>
    rw [chars_concat]
    exact ends_text rfl _
  | conditional condition whenTrue whenFalse =>
    rw [chars_conditional]
    exact ends_text rfl _

theorem unaryOp_of_ends {cs : List Char} (ends : Ends neverFirst cs) : unaryOp cs = none := by
  have not : expect "~" cs = none := expect_of_ends rfl ends
  have neg : expect "-" cs = none := expect_of_ends rfl ends
  simp [unaryOp, oneOf, UnaryOp.token, not, neg]

/-- What begins neither with a bracket nor with a brace is a literal or a selection. -/
theorem expr_leaf {n : Nat} {cs : List Char} (open_paren : expect "(" cs = none)
    (open_brace : expect "\x7b" cs = none) : expr (n + 1) cs = match literal cs with
      | some ((value, shape), cs) => some (.literal value shape, cs)
      | none => selection cs := by
  rw [expr]
  cases leaf : literal cs <;> simp only [open_paren, open_brace, leaf]

theorem literal_of_name {n : String} (h : isName n = true) (rest : List Char) :
    literal (n.toList ++ rest) = none := by
  obtain ⟨⟨c, cs, hlist, hc⟩, -, -⟩ := isName_iff.mp h
  simp [literal, number, hlist, hc]

/-- An expression that begins with a name. -/
theorem expr_of_name {m : Nat} {n : String} (h : isName n = true) (rest : List Char) :
    expr (m + 1) (n.toList ++ rest) = selection (n.toList ++ rest) := by
  have paren : expect "(" (n.toList ++ rest) = none :=
    expect_of_ends rfl (ends_name h rest fun c hc => isNameChar_ne hc (d := '(') rfl)
  have brace : expect "\x7b" (n.toList ++ rest) = none :=
    expect_of_ends rfl (ends_name h rest fun c hc => isNameChar_ne hc (d := '\x7b') rfl)
  rw [expr_leaf paren brace, literal_of_name h rest]

/-- With this fuel the reader gets the expression back, whatever follows it. -/
def Readable (n : Nat) (e : Expr) : Prop :=
  ∀ rest, Stops rest → expr n (e.text.toList ++ rest) = some (e.normal, rest)

def PartsReadable (n : Nat) (parts : List Expr) : Prop :=
  ∀ rest, exprs n ((Expr.partsText parts).toList ++ ("\x7d".toList ++ rest)) =
    some (Expr.normalParts parts, "\x7d".toList ++ rest)

theorem readable_name (n : Nat) {base : String} (h : isName base = true) :
    Readable (n + 1) (.name base) := by
  intro rest stops
  rw [Expr.text, expr_of_name h]
  exact selection_name h stops

theorem readable_bitSelect (n : Nat) {base : String} (h : isName base = true) (i : Nat) :
    Readable (n + 1) (.bitSelect base i) := by
  intro rest _
  have hselect := selection_bit h i rest
  rw [chars_bitSelect] at hselect ⊢
  rw [expr_of_name h]
  exact hselect

theorem readable_partSelect (n : Nat) {base : String} (h : isName base = true) (i j : Nat) :
    Readable (n + 1) (.partSelect base i j) := by
  intro rest _
  have hselect := selection_part h i j rest
  rw [chars_partSelect] at hselect ⊢
  rw [expr_of_name h]
  exact hselect

theorem readable_literal (n : Nat) (v : Word) (s : Shape) : Readable (n + 1) (.literal v s) := by
  intro rest stops
  have paren : expect "(" ((Expr.literal v s).text.toList ++ rest) = none :=
    expect_of_ends rfl (ends_literal v s rest fun c hc => isNameChar_ne hc (d := '(') rfl)
  have brace : expect "\x7b" ((Expr.literal v s).text.toList ++ rest) = none :=
    expect_of_ends rfl (ends_literal v s rest fun c hc => isNameChar_ne hc (d := '\x7b') rfl)
  rw [expr_leaf paren brace, Expr.text, literal_append v s stops.name]
  rfl

theorem readable_unary {n : Nat} (op : UnaryOp) {operand : Expr} (h : Readable n operand) :
    Readable (n + 1) (.unary op operand) := by
  intro rest _
  have back := h (")".toList ++ rest) (ends_text rfl _)
  rw [chars_unary, expr]
  simp only [expect_append, unaryOp_append, back, Option.bind_eq_bind, Option.bind_some,
    Option.pure_def, Expr.normal]

/-- What tells a binary expression from a unary one is that no operand begins with an operator. -/
theorem readable_binary {n : Nat} (op : BinaryOp) {left right : Expr}
    (legal : ∀ m ∈ left.names, isName m = true) (hl : Readable n left) (hr : Readable n right) :
    Readable (n + 1) (.binary op left right) := by
  intro rest _
  have backl := hl ((" " ++ op.token ++ " ").toList ++ (right.text.toList ++ (")".toList ++ rest)))
    (by cases op <;> exact ends_text rfl _)
  have backr := hr (")".toList ++ rest) (ends_text rfl _)
  rw [chars_binary, expr]
  simp only [expect_append, unaryOp_of_ends (ends_expr legal _), backl, backr,
    binaryOp_no_condition, binaryOp_append, Option.bind_eq_bind, Option.bind_some,
    Option.pure_def, Expr.normal]

theorem readable_conditional {n : Nat} {condition whenTrue whenFalse : Expr}
    (legal : ∀ m ∈ condition.names, isName m = true) (hc : Readable n condition)
    (ht : Readable n whenTrue) (hf : Readable n whenFalse) :
    Readable (n + 1) (.conditional condition whenTrue whenFalse) := by
  intro rest _
  have backc := hc (" ? ".toList ++ (whenTrue.text.toList ++
    (" : ".toList ++ (whenFalse.text.toList ++ (")".toList ++ rest))))) (ends_text rfl _)
  have backt := ht (" : ".toList ++ (whenFalse.text.toList ++ (")".toList ++ rest)))
    (ends_text rfl _)
  have backf := hf (")".toList ++ rest) (ends_text rfl _)
  rw [chars_conditional, expr]
  simp only [expect_append, unaryOp_of_ends (ends_expr legal _), backc, backt, backf,
    Option.bind_eq_bind, Option.bind_some, Option.pure_def, Expr.normal]

theorem no_paren (cs : List Char) : expect "(" ("\x7b".toList ++ cs) = none :=
  expect_of_ends (p := (· == '(')) rfl (ends_text rfl cs)

theorem readable_concat_nil (n : Nat) : Readable (n + 1) (.concat []) := by
  intro rest _
  have text : (Expr.concat []).text.toList ++ rest =
      "\x7b".toList ++ ("\x7d".toList ++ rest) := chars_concat rest []
  rw [text, expr]
  simp only [no_paren, expect_append]
  rfl

theorem ends_parts {e : Expr} (legal : ∀ m ∈ e.names, isName m = true) (others : List Expr)
    (rest : List Char) : Ends neverFirst ((Expr.partsText (e :: others)).toList ++ rest) := by
  cases others with
  | nil => exact ends_expr legal rest
  | cons next more =>
    rw [chars_parts]
    exact ends_expr legal _

theorem readable_concat {n : Nat} {first : Expr} {others : List Expr}
    (legal : ∀ m ∈ first.names, isName m = true) (h : PartsReadable n (first :: others)) :
    Readable (n + 1) (.concat (first :: others)) := by
  intro rest _
  have noBrace : expect "\x7d" ((Expr.partsText (first :: others)).toList ++
      ("\x7d".toList ++ rest)) = none :=
    expect_of_ends rfl (ends_parts legal others _)
  rw [chars_concat, expr]
  simp only [no_paren, expect_append, noBrace, h rest, Option.bind_eq_bind, Option.bind_some,
    Option.pure_def, Expr.normal]

theorem partsReadable_single {n : Nat} {e : Expr} (h : Readable n e) :
    PartsReadable (n + 1) [e] := by
  intro rest
  have back := h ("\x7d".toList ++ rest) (ends_text rfl _)
  have noComma : expect ", " ("\x7d".toList ++ rest) = none :=
    expect_of_ends (p := (· == ',')) rfl (ends_text rfl rest)
  rw [Expr.partsText, exprs]
  simp only [back, noComma, Option.bind_eq_bind, Option.bind_some, Option.pure_def,
    Expr.normalParts]

theorem partsReadable_cons {n : Nat} {e next : Expr} {more : List Expr} (h : Readable n e)
    (hmore : PartsReadable n (next :: more)) : PartsReadable (n + 1) (e :: next :: more) := by
  intro rest
  have back := h (", ".toList ++
    ((Expr.partsText (next :: more)).toList ++ ("\x7d".toList ++ rest))) (ends_text rfl _)
  rw [chars_parts, exprs]
  simp only [back, expect_append, hmore rest, Option.bind_eq_bind, Option.bind_some,
    Option.pure_def, Expr.normalParts]

mutual

/-- The length of the text is fuel enough, since every operand is shorter. -/
theorem expr_append (e : Expr) (legal : ∀ n ∈ e.names, isName n = true) (fuel : Nat)
    (enough : e.text.toList.length < fuel) : Readable fuel e := by
  obtain ⟨n, rfl⟩ : ∃ n, fuel = n + 1 := ⟨fuel - 1, by omega⟩
  cases e with
  | name base => exact readable_name n (legal base (by simp [Expr.names]))
  | literal v s => exact readable_literal n v s
  | bitSelect base index => exact readable_bitSelect n (legal base (by simp [Expr.names])) index
  | partSelect base high low =>
    exact readable_partSelect n (legal base (by simp [Expr.names])) high low
  | unary op operand =>
    have short : operand.text.toList.length < n := by
      simp [Expr.text] at enough ⊢
      omega
    exact readable_unary op (expr_append operand legal n short)
  | binary op left right =>
    have legal_left : ∀ m ∈ left.names, isName m = true := fun m hm =>
      legal m (by simp [Expr.names, hm])
    have short : left.text.toList.length < n ∧ right.text.toList.length < n := by
      simp [Expr.text] at enough ⊢
      omega
    exact readable_binary op legal_left (expr_append left legal_left n short.1)
      (expr_append right (fun m hm => legal m (by simp [Expr.names, hm])) n short.2)
  | conditional condition whenTrue whenFalse =>
    have legal_condition : ∀ m ∈ condition.names, isName m = true := fun m hm =>
      legal m (by simp [Expr.names, hm])
    have short : condition.text.toList.length < n ∧ whenTrue.text.toList.length < n ∧
        whenFalse.text.toList.length < n := by
      simp [Expr.text] at enough ⊢
      omega
    exact readable_conditional legal_condition (expr_append condition legal_condition n short.1)
      (expr_append whenTrue (fun m hm => legal m (by simp [Expr.names, hm])) n short.2.1)
      (expr_append whenFalse (fun m hm => legal m (by simp [Expr.names, hm])) n short.2.2)
  | concat parts =>
    cases parts with
    | nil => exact readable_concat_nil n
    | cons first others =>
      have short : (Expr.partsText (first :: others)).toList.length + 1 < n := by
        simp [Expr.text] at enough ⊢
        omega
      exact readable_concat
        (fun m hm => legal m (by simp [Expr.names, Expr.namesOfParts, hm]))
        (exprs_append (first :: others) (by simp) legal n short)

theorem exprs_append (parts : List Expr) (nonempty : parts ≠ [])
    (legal : ∀ n ∈ Expr.namesOfParts parts, isName n = true) (fuel : Nat)
    (enough : (Expr.partsText parts).toList.length + 1 < fuel) : PartsReadable fuel parts := by
  obtain ⟨n, rfl⟩ : ∃ n, fuel = n + 1 := ⟨fuel - 1, by omega⟩
  cases parts with
  | nil => exact absurd rfl nonempty
  | cons e others =>
    have legal_first : ∀ m ∈ e.names, isName m = true := fun m hm =>
      legal m (by simp [Expr.namesOfParts, hm])
    cases others with
    | nil =>
      have short : e.text.toList.length < n := by
        simp only [Expr.partsText] at enough
        omega
      exact partsReadable_single (expr_append e legal_first n short)
    | cons next more =>
      have short : e.text.toList.length < n ∧
          (Expr.partsText (next :: more)).toList.length + 1 < n := by
        simp [Expr.partsText] at enough ⊢
        omega
      exact partsReadable_cons (expr_append e legal_first n short.1)
        (exprs_append (next :: more) (by simp)
          (fun m hm => legal m (by rw [Expr.namesOfParts]; exact List.mem_append_right _ hm)) n
          short.2)

end

end Reader

end NetBridge.Verilog
