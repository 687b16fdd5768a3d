import FormulaSynth.Expr.Text
import FormulaSynth.Formula.Nesting
import FormulaSynth.Formula.Token
import FormulaSynth.Proofs.Expr.Shape
import FormulaSynth.Proofs.Json.Compact
/-!
# What the texts of a tree say of it

A tree has two texts, its JSON form and its formula form, and each of them says all that can be
told of a tree without looking at what its calls stand for. So two trees have the same text if and
only if they look the same (`Expr.json_faithful`, `Expr.display_faithful`).

For the JSON form this is a matter of values. No two values have the same compact text
(`Json.compact_inj`), whatever the strings in them are, and the value of a tree is made of its
parts in a way that can be taken apart again (`Expr.toJson_eq_iff`).

The formula form is less sure of itself: nothing is escaped in it, so the names have to be such as
no mark of a formula stands in. Then the longest word at the beginning of a text, and what stands
behind it, say what form a tree has (`Expr.form_ofText`), and the parts of the tree are determined
one after the other, each in front of what follows it (`Expr.determines_print`). Nothing is read
here as a formula is, so there is no limit to the size or the depth of a tree.
-/

namespace FormulaSynth

namespace Expr

/-! ## Sameness -/

/-- Lists of trees look the same if their trees do, place by place. -/
theorem sameAll_iff {args args' : List Expr} :
    sameAll args args' = true ↔ List.Forall₂ (fun a b => a.same b = true) args args' := by
  induction args generalizing args' with
  | nil => cases args' <;> simp [sameAll]
  | cons a args ih => cases args' <;> simp [sameAll, ih]

/-- Calls look the same if their names and their arguments do. -/
theorem same_call {name name' : String} {f f' : Builtin} {args args' : List Expr} :
    (call name f args).same (call name' f' args') = true ↔
      name = name' ∧ sameAll args args' = true := by
  simp [same]

/-! ## The JSON form -/

/-- Lists of trees have the same JSON forms if they look the same, where their trees do so. -/
theorem toJsonAll_eq_iff {args args' : List Expr}
    (h : ∀ a ∈ args, ∀ b, a.toJson = b.toJson ↔ a.same b = true) :
    toJsonAll args = toJsonAll args' ↔ sameAll args args' = true := by
  induction args generalizing args' with
  | nil => cases args' <;> simp [toJsonAll, sameAll]
  | cons a args ih =>
    obtain ⟨ha, hargs⟩ := List.forall_mem_cons.mp h
    cases args' <;> simp [toJsonAll, sameAll, ha, ih hargs]

/-- **Trees have the same JSON form if and only if they look the same.** -/
theorem toJson_eq_iff {a b : Expr} : a.toJson = b.toJson ↔ a.same b = true := by
  induction a using inductionOn generalizing b with
  | const v => cases b <;> simp [toJson, same, Int32.toInt_inj]
  | var name => cases b <;> simp [toJson, same]
  | binary op l r hl hr =>
    cases b with
    | binary op' l' r' =>
      have hname : op.name = op'.name ↔ op = op' :=
        ⟨fun h => Option.some.inj (by rw [← Operation.ofName?_name op, h, Operation.ofName?_name]),
          congrArg _⟩
      simp [toJson, same, hl, hr, hname, and_assoc]
    | _ => simp [toJson, same]
  | call name f args ih =>
    cases b with
    | call name' f' args' => simp [toJson, same, toJsonAll_eq_iff ih]
    | _ => simp [toJson, same]

/-- **The JSON form of a tree is faithful.** Whatever the names in them are and however many
arguments their calls have, two trees have the same compact text if and only if they look the
same. -/
theorem json_faithful (a b : Expr) :
    a.toJson.compact = b.toJson.compact ↔ a.same b = true :=
  Json.compact_inj.trans toJson_eq_iff

/-! ## Names -/

mutual

/-- **The names in a tree**, those of its variables and those of its calls. -/
def names : Expr → List String
  | const _ => []
  | var name => [name]
  | binary _ l r => l.names ++ r.names
  | call name _ args => name :: namesAll args

/-- The names in several trees. -/
def namesAll : List Expr → List String
  | [] => []
  | e :: rest => e.names ++ namesAll rest

end

theorem mem_namesAll {name : String} {args : List Expr} :
    name ∈ namesAll args ↔ ∃ a ∈ args, name ∈ a.names := by
  induction args with
  | nil => simp [namesAll]
  | cons a args ih => simp [namesAll, ih]

/-- **An identifier**: a letter or an underscore, and then letters, digits and underscores. What
is a letter or a digit beyond the basic alphabet is left open: any character there may be one. -/
def Identifier (name : String) : Prop :=
  ∃ c letters, name.toList = c :: letters ∧ (Token.isNameStart c = true ∨ 128 ≤ c.toNat) ∧
    ∀ d ∈ letters, Token.isNameRest d = true ∨ 128 ≤ d.toNat

/-! ## Words -/

/-- Whether a character can stand in a number or a name: it does if it is none that can stand
next to one. -/
def isWordPart (c : Char) : Bool :=
  !(c = ' ' || c = ',' || c = '(' || c = ')')

theorem isWordPart_iff {c : Char} :
    isWordPart c = true ↔ c ≠ ' ' ∧ c ≠ ',' ∧ c ≠ '(' ∧ c ≠ ')' := by
  simp [isWordPart, and_assoc]

theorem isWordPart_of_isIntegerPart {c : Char} (h : Decimal.isIntegerPart c = true) :
    isWordPart c = true := by
  rw [isWordPart_iff]
  refine ⟨?_, ?_, ?_, ?_⟩ <;> rintro rfl <;> exact absurd h (by decide)

theorem isWordPart_of_isNameRest {c : Char} (h : Token.isNameRest c = true ∨ 128 ≤ c.toNat) :
    isWordPart c = true := by
  rw [isWordPart_iff]
  refine ⟨?_, ?_, ?_, ?_⟩ <;> rintro rfl <;> exact absurd h (by decide)

/-- The text of an integer is a word. -/
theorem isWordPart_of_mem_ofInt (i : Int) : ∀ c ∈ Decimal.ofInt i, isWordPart c = true :=
  fun _ hc => isWordPart_of_isIntegerPart (Decimal.isIntegerPart_of_mem_ofInt hc)

namespace Identifier

variable {name : String}

/-- An identifier is a word. -/
theorem isWordPart_of_mem (h : Identifier name) : ∀ c ∈ name.toList, isWordPart c = true := by
  obtain ⟨c, letters, hname, hc, hletters⟩ := h
  rw [hname]
  refine List.forall_mem_cons.mpr ⟨isWordPart_of_isNameRest ?_, fun d hd => ?_⟩
  · exact hc.imp_left fun hstart => by rw [Token.isNameRest, hstart, Bool.true_or]
  · exact isWordPart_of_isNameRest (hletters d hd)

/-- It does not begin like a number. -/
theorem exists_head (h : Identifier name) :
    ∃ c letters, name.toList = c :: letters ∧ Decimal.isIntegerPart c = false := by
  obtain ⟨c, letters, hname, hc, -⟩ := h
  refine ⟨c, letters, hname, ?_⟩
  have hminus : c ≠ '-' := by
    rintro rfl
    exact absurd hc (by decide)
  have hdigit : Decimal.isDigit c = false := by
    obtain hstart | hbeyond := hc
    · exact Token.not_isDigit_of_isNameStart hstart
    · rw [Decimal.isDigit, Bool.and_eq_false_iff, decide_eq_false_iff_not, decide_eq_false_iff_not]
      exact .inr fun hle => absurd (Nat.le_trans hbeyond hle) (by decide)
  rw [Decimal.isIntegerPart, hdigit, decide_eq_false hminus, Bool.or_false]

end Identifier

/-! ## Forms -/

/-- **The forms of trees** that the beginning of a text tells apart. -/
inductive Form where
  | const | var | binary | call
  deriving DecidableEq

/-- The form of a tree. -/
def form : Expr → Form
  | const _ => .const
  | var _ => .var
  | binary .. => .binary
  | call .. => .call

/-- **The form of the tree whose text begins a text**, by the word at the beginning and what stands
behind it. -/
def Form.ofText (cs : List Char) : Form :=
  match cs.takeWhile isWordPart with
  | [] => .binary
  | c :: _ =>
    if Decimal.isIntegerPart c then .const
    else if (cs.dropWhile isWordPart).head? = some '(' then .call
    else .var

/-- The word at the beginning tells numbers from names, and what stands behind a name tells calls
from variables. -/
theorem Form.ofText_eq {c : Char} {word text rest : List Char} (htext : text = c :: word)
    (h : Longest isWordPart text rest) : ofText (text ++ rest) =
      if Decimal.isIntegerPart c then .const
      else if rest.head? = some '(' then .call else .var := by
  have hdrop : (text ++ rest).dropWhile isWordPart = rest := by
    have happend := List.takeWhile_append_dropWhile (p := isWordPart) (l := text ++ rest)
    rw [h.takeWhile_eq] at happend
    exact List.append_cancel_left happend
  rw [ofText, h.takeWhile_eq, hdrop, htext]

theorem Form.ofText_name {name : String} {rest : List Char} (h : Identifier name)
    (hrest : ∀ c ∈ rest.head?, isWordPart c = false) :
    ofText (name.toList ++ rest) = if rest.head? = some '(' then .call else .var := by
  obtain ⟨c, letters, hname, hc⟩ := h.exists_head
  rw [ofText_eq hname ⟨h.isWordPart_of_mem, hrest⟩, if_neg (by simp [hc])]

/-- Whether a text may follow that of a tree: it ends there, or goes on as it does behind an
operand or an argument. -/
def Follows (rest : List Char) : Prop :=
  ∀ c ∈ rest.head?, c = ' ' ∨ c = ',' ∨ c = ')'

theorem Follows.not_isWordPart {rest : List Char} (h : Follows rest) :
    ∀ c ∈ rest.head?, isWordPart c = false := by
  intro c hc
  obtain rfl | rfl | rfl := h c hc <;> rfl

theorem follows_cons {c : Char} (h : c = ' ' ∨ c = ',' ∨ c = ')') (rest : List Char) :
    Follows (c :: rest) := by
  intro d hd
  cases hd
  exact h

/-! ## The formula form -/

/-- A call is its name and the sequence of its arguments in parentheses. -/
theorem print_call (name : String) (f : Builtin) (args : List Expr) :
    (call name f args).print = name.toList ++ '(' :: Text.items ',' [' '] ')' print args := by
  have hmore : ∀ rest, printMoreArguments rest ++ [')'] =
      Text.moreItems ',' [' '] ')' print rest := by
    intro rest
    induction rest with
    | nil => rfl
    | cons e rest ih => rw [Text.moreItems, ← ih]; simp [printMoreArguments]
  cases args with
  | nil => rfl
  | cons e rest => rw [print, printArguments, Text.items, List.append_assoc, hmore]

section Print

variable {a b : Expr} {rest rest' : List Char}

/-- The text of a tree does not begin like the end of a list of arguments. -/
theorem exists_head_print_ne (h : ∀ name ∈ a.names, Identifier name) :
    ∃ c text, a.print = c :: text ∧ c ≠ ')' := by
  have hword {c : Char} {word text : List Char} (hc : ∀ d ∈ word, isWordPart d = true)
      (hword : word = c :: text) : c ≠ ')' :=
    (isWordPart_iff.mp (hc c (hword ▸ List.mem_cons_self))).2.2.2
  cases a with
  | const v =>
    obtain ⟨c, text, htext, -⟩ := Decimal.exists_head_ofInt v.toInt
    exact ⟨c, text, htext, hword (isWordPart_of_mem_ofInt v.toInt) htext⟩
  | var name =>
    have hname : Identifier name := h name List.mem_cons_self
    obtain ⟨c, letters, htext, -⟩ := hname.exists_head
    exact ⟨c, letters, htext, hword hname.isWordPart_of_mem htext⟩
  | binary op l r => exact ⟨_, _, rfl, by decide⟩
  | call name f args =>
    have hname : Identifier name := h name List.mem_cons_self
    obtain ⟨c, letters, htext, -⟩ := hname.exists_head
    exact ⟨c, _, by rw [print, htext]; rfl, hword hname.isWordPart_of_mem htext⟩

/-- **The text of a tree says of which form it is**, in front of what may follow it. -/
theorem form_ofText (h : ∀ name ∈ a.names, Identifier name) (hrest : Follows rest) :
    Form.ofText (a.print ++ rest) = a.form := by
  cases a with
  | const v =>
    obtain ⟨c, word, htext, hc⟩ := Decimal.exists_head_ofInt v.toInt
    rw [print, Form.ofText_eq htext ⟨isWordPart_of_mem_ofInt v.toInt, hrest.not_isWordPart⟩,
      if_pos hc]
    rfl
  | var name =>
    have hname : Identifier name := h name List.mem_cons_self
    have hopening : rest.head? ≠ some '(' := fun hhead => absurd (hrest _ hhead) (by decide)
    rw [print, Form.ofText_name hname hrest.not_isWordPart, if_neg hopening]
    rfl
  | binary op l r => rfl
  | call name f args =>
    have hname : Identifier name := h name List.mem_cons_self
    rw [print_call, List.append_assoc, Form.ofText_name hname (by simp [isWordPart])]
    rfl

/-- Trees whose texts begin one text are of one form. -/
theorem form_eq_of_print_append (ha : ∀ name ∈ a.names, Identifier name)
    (hb : ∀ name ∈ b.names, Identifier name) (hrest : Follows rest) (hrest' : Follows rest')
    (h : a.print ++ rest = b.print ++ rest') : a.form = b.form := by
  rw [← form_ofText ha hrest, h, form_ofText hb hrest']

/-- An operation is determined by its sign in front of a blank. -/
theorem symbol_append_inj {op op' : Operation}
    (h : op.symbol.toList ++ ' ' :: rest = op'.symbol.toList ++ ' ' :: rest') :
    op = op' ∧ rest = rest' := by
  have hsign (op : Operation) (rest : List Char) :
      Longest (· != ' ') op.symbol.toList (' ' :: rest) :=
    ⟨List.all_eq_true.mp (by cases op <;> rfl), by simp⟩
  obtain ⟨hsymbol, hrests⟩ := (hsign op rest).unique (hsign op' rest') h
  refine ⟨Option.some.inj ?_, (List.cons.inj hrests).2⟩
  rw [← Operation.ofSymbol?_symbol op, String.toList_inj.mp hsymbol, Operation.ofSymbol?_symbol]

/-- Arguments are determined up to the parenthesis behind them, if each of them is. -/
theorem determines_arguments {args args' : List Expr}
    (hargs : ∀ e ∈ args, ∀ name ∈ e.names, Identifier name)
    (hargs' : ∀ e ∈ args', ∀ name ∈ e.names, Identifier name)
    (h : ∀ e ∈ args, ∀ e' ∈ args',
      Text.Determines print Follows (fun a b => a.same b = true) e e') :
    Text.Determines (Text.items ',' [' '] ')' print) (fun _ => True)
      (fun es es' => sameAll es es' = true) args args' := by
  intro rest rest' _ _ heq
  have hbegins (e : Expr) (he : e ∈ args ++ args') : ∃ c text, e.print = c :: text ∧ c ≠ ')' :=
    exists_head_print_ne ((List.mem_append.mp he).elim (hargs e) (hargs' e))
  obtain ⟨hsame, hrests⟩ := Text.determines_items (by decide)
    (fun text => ⟨follows_cons (.inr (.inl rfl)) text, follows_cons (.inr (.inr rfl)) text⟩)
    hbegins h rest rest' trivial trivial heq
  exact ⟨sameAll_iff.mpr hsame, hrests⟩

/-- **A tree is determined by its text**, as far as it looks, in front of what may follow it. -/
theorem determines_print (ha : ∀ name ∈ a.names, Identifier name)
    (hb : ∀ name ∈ b.names, Identifier name) :
    Text.Determines print Follows (fun a b => a.same b = true) a b := by
  induction a using inductionOn generalizing b with
  | const v =>
    intro rest rest' hrest hrest' heq
    cases b <;> cases form_eq_of_print_append ha hb hrest hrest' heq
    next w =>
    obtain ⟨hvalue, hrests⟩ := Longest.unique
      ⟨isWordPart_of_mem_ofInt v.toInt, hrest.not_isWordPart⟩
      ⟨isWordPart_of_mem_ofInt w.toInt, hrest'.not_isWordPart⟩ heq
    have hword : v = w := by
      rw [← Int32.toInt_inj, ← Decimal.toInt_ofInt v.toInt, hvalue, Decimal.toInt_ofInt]
    exact ⟨beq_iff_eq.mpr hword, hrests⟩
  | var name =>
    intro rest rest' hrest hrest' heq
    cases b <;> cases form_eq_of_print_append ha hb hrest hrest' heq
    next name' =>
    have hname : Identifier name := ha name List.mem_cons_self
    have hname' : Identifier name' := hb name' List.mem_cons_self
    obtain ⟨hnames, hrests⟩ := Longest.unique ⟨hname.isWordPart_of_mem, hrest.not_isWordPart⟩
      ⟨hname'.isWordPart_of_mem, hrest'.not_isWordPart⟩ heq
    exact ⟨beq_iff_eq.mpr (String.toList_inj.mp hnames), hrests⟩
  | binary op l r hl hr =>
    intro rest rest' hrest hrest' heq
    cases b <;> cases form_eq_of_print_append ha hb hrest hrest' heq
    next op' l' r' =>
    have htext : l.print ++ ' ' :: (op.symbol.toList ++ ' ' :: (r.print ++ ')' :: rest)) =
        l'.print ++ ' ' :: (op'.symbol.toList ++ ' ' :: (r'.print ++ ')' :: rest')) := by
      simpa [print] using heq
    obtain ⟨hleft, hbehind⟩ := hl (fun n hn => ha n (List.mem_append_left _ hn))
      (fun n hn => hb n (List.mem_append_left _ hn)) _ _
      (follows_cons (.inl rfl) _) (follows_cons (.inl rfl) _) htext
    obtain ⟨hop, hright⟩ := symbol_append_inj (List.cons.inj hbehind).2
    obtain ⟨hright, hclosing⟩ := hr (fun n hn => ha n (List.mem_append_right _ hn))
      (fun n hn => hb n (List.mem_append_right _ hn)) _ _
      (follows_cons (.inr (.inr rfl)) _) (follows_cons (.inr (.inr rfl)) _) hright
    exact ⟨by simp [same, hop, hleft, hright], (List.cons.inj hclosing).2⟩
  | call name f args ih =>
    intro rest rest' hrest hrest' heq
    cases b <;> cases form_eq_of_print_append ha hb hrest hrest' heq
    next name' f' args' =>
    have hname : Identifier name := ha name List.mem_cons_self
    have hname' : Identifier name' := hb name' List.mem_cons_self
    have hargs (e : Expr) (he : e ∈ args) : ∀ n ∈ e.names, Identifier n :=
      fun n hn => ha n (List.mem_cons_of_mem _ (mem_namesAll.mpr ⟨e, he, hn⟩))
    have hargs' (e : Expr) (he : e ∈ args') : ∀ n ∈ e.names, Identifier n :=
      fun n hn => hb n (List.mem_cons_of_mem _ (mem_namesAll.mpr ⟨e, he, hn⟩))
    rw [print_call, print_call, List.append_assoc, List.append_assoc] at heq
    obtain ⟨hnames, hmore⟩ := Longest.unique ⟨hname.isWordPart_of_mem, by simp [isWordPart]⟩
      ⟨hname'.isWordPart_of_mem, by simp [isWordPart]⟩ heq
    obtain ⟨hsame, hrests⟩ := determines_arguments hargs hargs'
      (fun e he e' he' => ih e he (hargs e he) (hargs' e' he'))
      rest rest' trivial trivial (List.cons.inj hmore).2
    exact ⟨same_call.mpr ⟨String.toList_inj.mp hnames, hsame⟩, hrests⟩

/-- Arguments that look the same have the same text, where each of them has. -/
theorem printArguments_eq_of_sameAll {args args' : List Expr}
    (h : ∀ a ∈ args, ∀ b : Expr, a.same b = true → a.print = b.print)
    (hsame : sameAll args args' = true) :
    printArguments args = printArguments args' ∧
      printMoreArguments args = printMoreArguments args' := by
  induction args generalizing args' with
  | nil =>
    cases args' with
    | nil => exact ⟨rfl, rfl⟩
    | cons b args' => cases hsame
  | cons a args ih =>
    cases args' with
    | nil => cases hsame
    | cons b args' =>
      obtain ⟨ha, hargs⟩ := List.forall_mem_cons.mp h
      obtain ⟨hfirst, hmore⟩ := Bool.and_eq_true_iff.mp hsame
      rw [printArguments, printArguments, printMoreArguments, printMoreArguments, ha b hfirst,
        (ih hargs hmore).2]
      exact ⟨rfl, rfl⟩

/-- Trees that look the same have the same text. -/
theorem print_eq_of_same (h : a.same b = true) : a.print = b.print := by
  induction a using inductionOn generalizing b with
  | const v =>
    cases b with
    | const w => rw [beq_iff_eq.mp (show (v == w) = true from h)]
    | _ => cases h
  | var name =>
    cases b with
    | var name' => rw [beq_iff_eq.mp (show (name == name') = true from h)]
    | _ => cases h
  | binary op l r hl hr =>
    cases b with
    | binary op' l' r' =>
      obtain ⟨hleft, hright⟩ := Bool.and_eq_true_iff.mp h
      obtain ⟨hop, hleft⟩ := Bool.and_eq_true_iff.mp hleft
      rw [print, print, beq_iff_eq.mp hop, hl hleft, hr hright]
    | _ => cases h
  | call name f args ih =>
    cases b with
    | call name' f' args' =>
      obtain ⟨hname, hargs⟩ := same_call.mp h
      rw [print, print, hname,
        (printArguments_eq_of_sameAll (fun a ha b => ih a ha) hargs).1]
    | _ => cases h

end Print

/-- **The formula form of a tree is faithful**, if the names in it are identifiers. Two such trees
of any size and depth have the same text if and only if they look the same. -/
theorem display_faithful (a b : Expr) (ha : ∀ name ∈ a.names, Identifier name)
    (hb : ∀ name ∈ b.names, Identifier name) : a.display = b.display ↔ a.same b = true := by
  refine ⟨fun h => ?_, fun h => congrArg String.ofList (print_eq_of_same h)⟩
  have hprint : a.print = b.print := String.ofList_inj.mp h
  have hends : Follows [] := fun _ hc => absurd hc (by simp)
  exact (determines_print ha hb [] [] hends hends (congrArg (· ++ []) hprint)).1

/-- A chain of differences that are grouped to the left, or to the right. -/
def chain (left : Bool) : Nat → Expr
  | 0 => var "t"
  | n + 1 =>
    if left then binary .subtract (chain left n) (const (-1))
    else binary .subtract (const (-1)) (chain left n)

theorem eq_of_mem_names_chain {left : Bool} {n : Nat} {name : String}
    (h : name ∈ (chain left n).names) : name = "t" := by
  induction n with
  | zero => exact List.mem_singleton.mp h
  | succ n ih =>
    cases left with
    | true => exact ih (by simpa [chain, names] using h)
    | false => exact ih (by simpa [chain, names] using h)

/-- Chains of the same operations, grouped one way and the other, have different texts, although
the parentheses in them are too deep to be read. -/
theorem display_faithful_deep :
    let a := chain true 257
    let b := chain false 257
    (∀ name ∈ a.names, Identifier name) ∧ (∀ name ∈ b.names, Identifier name) ∧
      (a.display = b.display ↔ a.same b = true) ∧ a.display ≠ b.display ∧
      (Nesting.excess? a.print).isSome = true := by
  intro a b
  have hname : Identifier "t" := ⟨'t', [], rfl, .inl rfl, nofun⟩
  have ha : ∀ name ∈ a.names, Identifier name := fun _ h => eq_of_mem_names_chain h ▸ hname
  have hb : ∀ name ∈ b.names, Identifier name := fun _ h => eq_of_mem_names_chain h ▸ hname
  have hiff := display_faithful a b ha hb
  refine ⟨ha, hb, hiff, fun h => ?_, by decide +kernel⟩
  exact absurd (hiff.mp h) (by decide +kernel)

end Expr

end FormulaSynth
