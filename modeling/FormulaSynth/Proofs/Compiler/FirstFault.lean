import FormulaSynth.Proofs.Compiler.Diagnosis
/-!
# The first fault in a text

A formula can be at fault in many places at once: its names may be unknown, its numbers too
large, its calls may have too many arguments or too few. The one fault that is reported is the
first in the order of the text, whatever the operators between the faults do to the order of
evaluation (`Compiler.reports_first_fault`).

To say what the first one is, the faults are listed along the tokens, `Grammar.Faults`, as what
a user is told of them: the place, the sentence and the rule. That is a grammar of its own. It
knows operands, and operators between them, and that is all it knows of operators: it has no
levels, and no tree. The trees come in for the proof. Each list is that of the phrase with the
tokens, `Phrase.faults`, and a phrase has one list because it is the only one with its tokens
(`Grammar.faults_iff`). Reading a tree off a phrase stops at the first fault of the list
(`Phrase.head?_faults`), and building does as reading the tree does.
-/

namespace FormulaSynth

/-- The fault there is in the place of a result, if there is one. -/
def Fault.of? {α : Type} : Except Fault α → Option Fault
  | .ok _ => none
  | .error fault => some fault

theorem Fault.of?_eq_none_iff {α : Type} {x : Except Fault α} :
    Fault.of? x = none ↔ ∃ a, x = .ok a := by
  cases x <;> simp [Fault.of?]

theorem Fault.of?_eq_some_iff {α : Type} {x : Except Fault α} {fault : Fault} :
    Fault.of? x = some fault ↔ x = .error fault := by
  cases x <;> simp [Fault.of?]

/-! ## Faults along the tokens -/

namespace Grammar

mutual

/-- **What is told of the faults of an expression, in the order of its tokens.** They are those
of its operands, one operand after the other. Operators have none. -/
inductive Faults (v : Vocabulary) : List Lexeme → List Diagnostic → Prop where
  | operand {ts : List Lexeme} {ds : List Diagnostic} : OperandFaults v ts ds → Faults v ts ds
  | chain {ts us : List Lexeme} {ds es : List Diagnostic} (op : Operation) (p : Position) :
    Faults v ts ds → OperandFaults v us es →
      Faults v (ts ++ ⟨.operator op, p⟩ :: us) (ds ++ es)

/-- The faults of an operand. A number may not fit a word, and a name may be no variable. A call
of a function that there is not has this one fault, whatever its arguments are; any other has the
faults of its arguments, and may then have the wrong number of them. -/
inductive OperandFaults (v : Vocabulary) : List Lexeme → List Diagnostic → Prop where
  | number (p : Position) {text : List Char} :
    -0x80000000 ≤ Decimal.toInt text ∧ Decimal.toInt text < 0x80000000 →
      OperandFaults v [⟨.number text, p⟩] []
  | numberOutOfRange (p : Position) {text : List Char} :
    ¬ (-0x80000000 ≤ Decimal.toInt text ∧ Decimal.toInt text < 0x80000000) →
      OperandFaults v [⟨.number text, p⟩]
        [⟨p.line, p.column, s!"Number {String.ofList text} is out of range.", "number"⟩]
  | variable_ (p : Position) {name : String} :
    name ∈ v.variableNames → OperandFaults v [⟨.name name, p⟩] []
  | unknownVariable (p : Position) {name : String} :
    name ∉ v.variableNames → OperandFaults v [⟨.name name, p⟩]
      [⟨p.line, p.column, s!"Unknown variable {name}.", "variable"⟩]
  | group {ts : List Lexeme} {ds : List Diagnostic} (p q : Position) :
    Faults v ts ds → OperandFaults v (⟨.opening, p⟩ :: (ts ++ [⟨.closing, q⟩])) ds
  | unknownFunction {ts : List Lexeme} {count : Nat} {ds : List Diagnostic} (p q r : Position)
    {name : String} : v.function? name = none → ArgumentFaults v ts count ds →
      OperandFaults v (⟨.name name, p⟩ :: ⟨.opening, q⟩ :: (ts ++ [⟨.closing, r⟩]))
        [⟨p.line, p.column, s!"Unknown function {name}.", "function_name"⟩]
  | call {ts : List Lexeme} {count : Nat} {ds : List Diagnostic} (p q r : Position)
    {name : String} {f : Builtin} : v.function? name = some f → ArgumentFaults v ts count ds →
      f.arity.accepts count = true →
      OperandFaults v (⟨.name name, p⟩ :: ⟨.opening, q⟩ :: (ts ++ [⟨.closing, r⟩])) ds
  | argumentCount {ts : List Lexeme} {count : Nat} {ds : List Diagnostic} (p q r : Position)
    {name : String} {f : Builtin} : v.function? name = some f → ArgumentFaults v ts count ds →
      f.arity.accepts count = false →
      OperandFaults v (⟨.name name, p⟩ :: ⟨.opening, q⟩ :: (ts ++ [⟨.closing, r⟩]))
        (ds ++ [⟨p.line, p.column,
          s!"The {name} function has an inappropriate number of parameters: {count}.",
          "function_call"⟩])

/-- The faults of arguments, one argument after the other, and how many arguments they are. -/
inductive ArgumentFaults (v : Vocabulary) : List Lexeme → Nat → List Diagnostic → Prop where
  | none : ArgumentFaults v [] 0 []
  | last {ts : List Lexeme} {ds : List Diagnostic} : Faults v ts ds → ArgumentFaults v ts 1 ds
  | more {ts us : List Lexeme} {ds es : List Diagnostic} {count : Nat} (p : Position) :
    Faults v ts ds → ArgumentFaults v us (count + 1) es →
      ArgumentFaults v (ts ++ ⟨.comma, p⟩ :: us) (count + 2) (ds ++ es)

end

/-- An operator may have more than one operand behind it. -/
theorem Faults.append {v : Vocabulary} {ts : List Lexeme} {ds : List Diagnostic} (op : Operation)
    (p : Position) (h : Faults v ts ds) :
    ∀ {us : List Lexeme} {es : List Diagnostic}, Faults v us es →
      Faults v (ts ++ ⟨.operator op, p⟩ :: us) (ds ++ es)
  | _, _, .operand hoperand => .chain op p h hoperand
  | _, _, .chain op' p' hus hoperand => by
    rw [← List.append_assoc, ← List.cons_append, ← List.append_assoc]
    exact .chain op' p' (h.append op p hus) hoperand

end Grammar

/-! ## Faults of a phrase -/

namespace Phrase

mutual

/-- **The faults of a phrase**, from left to right. -/
def faults (v : Vocabulary) : Phrase → List Fault
  | number p text =>
    if -0x80000000 ≤ Decimal.toInt text ∧ Decimal.toInt text < 0x80000000 then []
    else [⟨.numberOutOfRange (String.ofList text), p⟩]
  | var p name => if name ∈ v.variableNames then [] else [⟨.unknownVariable name, p⟩]
  | group _ inner => inner.faults v
  | binary _ _ l r => l.faults v ++ r.faults v
  | call p name args =>
    match v.function? name with
    | none => [⟨.unknownFunction name, p⟩]
    | some f =>
      faultsAll v args ++
        if f.arity.accepts args.length then [] else [⟨.argumentCount name args.length, p⟩]

/-- The faults of several phrases, one phrase after the other. -/
def faultsAll (v : Vocabulary) : List Phrase → List Fault
  | [] => []
  | t :: rest => t.faults v ++ faultsAll v rest

end

/-- **What is told of the faults of a phrase.** -/
def told (v : Vocabulary) (t : Phrase) : List Diagnostic :=
  (t.faults v).map Fault.diagnostic

/-- What is told of the faults of several. -/
def toldAll (v : Vocabulary) (args : List Phrase) : List Diagnostic :=
  (faultsAll v args).map Fault.diagnostic

variable {v : Vocabulary} {p : Position} {op : Operation} {name : String} {f : Builtin}
  {t u : Phrase} {args : List Phrase}

theorem faults_call_of_none (h : v.function? name = none) :
    (call p name args).faults v = [⟨.unknownFunction name, p⟩] := by
  simp only [faults, h]

theorem faults_call_of_some (h : v.function? name = some f) :
    (call p name args).faults v = faultsAll v args ++
      if f.arity.accepts args.length then [] else [⟨.argumentCount name args.length, p⟩] := by
  simp only [faults, h]

theorem told_call_of_none (h : v.function? name = none) : (call p name args).told v =
    [⟨p.line, p.column, s!"Unknown function {name}.", "function_name"⟩] := by
  rw [told, faults_call_of_none h]
  rfl

theorem told_call_of_accepts (h : v.function? name = some f)
    (hcount : f.arity.accepts args.length = true) :
    (call p name args).told v = toldAll v args := by
  rw [told, faults_call_of_some h, if_pos hcount, List.append_nil, toldAll]

theorem told_call_of_not_accepts (h : v.function? name = some f)
    (hcount : f.arity.accepts args.length = false) : (call p name args).told v =
      toldAll v args ++ [⟨p.line, p.column,
        s!"The {name} function has an inappropriate number of parameters: {args.length}.",
        "function_call"⟩] := by
  rw [told, faults_call_of_some h, hcount, List.map_append, toldAll]
  rfl

/-- **An operand at the end of a phrase has its faults at the end**, wherever in the phrase its
operator puts it. -/
theorem faults_append : (t.append op p u).faults v = t.faults v ++ u.faults v := by
  induction t using inductionOn with
  | number | var | call | group => rfl
  | binary o q l r _ hr =>
    rw [append]
    split
    · rw [faults, hr, faults, List.append_assoc]
    · rfl

theorem told_append : (t.append op p u).told v = t.told v ++ u.told v := by
  rw [told, faults_append, List.map_append]
  rfl

/-- Reading trees off arguments stops at their first fault, if it does so for each of them. -/
theorem head?_faultsAll (h : ∀ t ∈ args, (t.faults v).head? = Fault.of? (t.tree v)) :
    (faultsAll v args).head? = Fault.of? (trees v args) := by
  induction args with
  | nil => rfl
  | cons t args ih =>
    obtain ⟨ht, hargs⟩ := List.forall_mem_cons.mp h
    rw [trees, faultsAll, List.head?_append, ht, ih hargs]
    cases t.tree v with
    | error fault => rfl
    | ok e => cases trees v args <;> rfl

/-- **Reading the tree of a phrase stops at its first fault**, and there is a tree if it has
none. -/
theorem head?_faults (v : Vocabulary) (t : Phrase) :
    (t.faults v).head? = Fault.of? (t.tree v) := by
  induction t using inductionOn with
  | number p text =>
    rw [tree, faults]
    split <;> rfl
  | var p name =>
    rw [tree, faults]
    split <;> rfl
  | group p inner ih => exact ih
  | binary op p l r hl hr =>
    rw [tree, faults, List.head?_append, hl, hr]
    cases l.tree v with
    | error fault => rfl
    | ok l' => cases r.tree v <;> rfl
  | call p name args ih =>
    cases hf : v.function? name with
    | none =>
      simp only [tree, hf, faults_call_of_none hf]
      rfl
    | some f =>
      rw [faults_call_of_some hf, List.head?_append, head?_faultsAll ih]
      simp only [tree, hf]
      cases hes : trees v args with
      | error fault => rfl
      | ok es =>
        -- the arguments are counted when none of them is at fault
        rw [← length_of_trees hes]
        show _ = Fault.of? (if f.arity.accepts es.length = true then _ else _)
        split <;> rfl

end Phrase

/-! ## Both lists are the same -/

namespace Grammar

mutual

/-- The faults of a phrase are listed along its tokens. -/
theorem Derives.faults {v : Vocabulary} : ∀ {n : Nat} {ts : List Lexeme} {t : Phrase},
    Derives n ts t → Faults v ts (t.told v)
  | _, _, _, .number p text => by
    rw [Phrase.told, Phrase.faults]
    split
    · next hfits => exact .operand (.number p hfits)
    · next hfits => exact .operand (.numberOutOfRange p hfits)
  | _, _, _, .variable_ p name => by
    rw [Phrase.told, Phrase.faults]
    split
    · next hmem => exact .operand (.variable_ p hmem)
    · next hmem => exact .operand (.unknownVariable p hmem)
  | _, _, _, .group p q hinner => .operand (.group p q hinner.faults)
  | _, _, _, @Derives.call _ args p q r name hargs => by
    cases hf : v.function? name with
    | none =>
      rw [Phrase.told_call_of_none hf]
      exact .operand (.unknownFunction p q r hf hargs.faults)
    | some f =>
      cases hcount : f.arity.accepts args.length with
      | true =>
        rw [Phrase.told_call_of_accepts hf hcount]
        exact .operand (.call p q r hf hargs.faults hcount)
      | false =>
        rw [Phrase.told_call_of_not_accepts hf hcount]
        exact .operand (.argumentCount p q r hf hargs.faults hcount)
  | _, _, _, .above habove => habove.faults
  | _, _, _, @Derives.chain _ _ _ l r op p hl _ hr => by
    have htold : (Phrase.binary op p l r).told v = l.told v ++ r.told v := List.map_append
    rw [htold]
    exact hl.faults.append op p hr.faults

/-- The faults of arguments are listed along theirs. -/
theorem Arguments.faults {v : Vocabulary} : ∀ {ts : List Lexeme} {args : List Phrase},
    Arguments ts args → ArgumentFaults v ts args.length (Phrase.toldAll v args)
  | _, _, .none => .none
  | _, _, .last hlast => by
    rw [Phrase.toldAll, Phrase.faultsAll, Phrase.faultsAll, List.append_nil]
    exact .last hlast.faults
  | _, _, .more p hfirst hargs => by
    rw [Phrase.toldAll, Phrase.faultsAll, List.map_append]
    exact .more p hfirst.faults hargs.faults

end

mutual

/-- **Faults listed along tokens are those of a phrase** with these tokens. Operand by operand
it is put together as reading puts it together. -/
theorem Faults.exists_derives {v : Vocabulary} : ∀ {ts : List Lexeme} {ds : List Diagnostic},
    Faults v ts ds → ∃ t, Derives 0 ts t ∧ t.told v = ds
  | _, _, .operand hoperand => by
    obtain ⟨t, ht, htold⟩ := hoperand.exists_derives
    exact ⟨t, ht.of_le (Nat.zero_le _), htold⟩
  | _, _, .chain op p hts hoperand => by
    obtain ⟨t, ht, rfl⟩ := hts.exists_derives
    obtain ⟨u, hu, rfl⟩ := hoperand.exists_derives
    exact ⟨t.append op p u, Derives.append p hu ht (Nat.zero_le _), Phrase.told_append⟩

/-- Faults of an operand are those of a phrase that is one. -/
theorem OperandFaults.exists_derives {v : Vocabulary} : ∀ {ts : List Lexeme}
    {ds : List Diagnostic}, OperandFaults v ts ds → ∃ t, Derives operand ts t ∧ t.told v = ds
  | _, _, .number p hfits => ⟨_, .number p _, by rw [Phrase.told, Phrase.faults, if_pos hfits]; rfl⟩
  | _, _, .numberOutOfRange p hfits =>
    ⟨_, .number p _, by rw [Phrase.told, Phrase.faults, if_neg hfits]; rfl⟩
  | _, _, .variable_ p hmem =>
    ⟨_, .variable_ p _, by rw [Phrase.told, Phrase.faults, if_pos hmem]; rfl⟩
  | _, _, .unknownVariable p hmem =>
    ⟨_, .variable_ p _, by rw [Phrase.told, Phrase.faults, if_neg hmem]; rfl⟩
  | _, _, .group p q hinner => by
    obtain ⟨t, ht, htold⟩ := hinner.exists_derives
    exact ⟨.group p t, .group p q ht, htold⟩
  | _, _, .unknownFunction p q r hf hargs => by
    obtain ⟨args, hder, -, -⟩ := hargs.exists_arguments
    exact ⟨_, .call p q r _ hder, Phrase.told_call_of_none hf⟩
  | _, _, .call p q r hf hargs hcount => by
    obtain ⟨args, hder, rfl, rfl⟩ := hargs.exists_arguments
    exact ⟨_, .call p q r _ hder, Phrase.told_call_of_accepts hf hcount⟩
  | _, _, .argumentCount p q r hf hargs hcount => by
    obtain ⟨args, hder, rfl, rfl⟩ := hargs.exists_arguments
    exact ⟨_, .call p q r _ hder, Phrase.told_call_of_not_accepts hf hcount⟩

/-- Faults of arguments are those of phrases that are arguments. -/
theorem ArgumentFaults.exists_arguments {v : Vocabulary} : ∀ {ts : List Lexeme} {count : Nat}
    {ds : List Diagnostic}, ArgumentFaults v ts count ds →
      ∃ args, Arguments ts args ∧ args.length = count ∧ Phrase.toldAll v args = ds
  | _, _, _, .none => ⟨[], .none, rfl, rfl⟩
  | _, _, _, .last hlast => by
    obtain ⟨t, ht, rfl⟩ := hlast.exists_derives
    refine ⟨[t], .last ht, rfl, ?_⟩
    rw [Phrase.toldAll, Phrase.faultsAll, Phrase.faultsAll, List.append_nil, Phrase.told]
  | _, _, _, .more p hfirst hargs => by
    obtain ⟨t, ht, rfl⟩ := hfirst.exists_derives
    obtain ⟨args, hder, hlength, rfl⟩ := hargs.exists_arguments
    obtain ⟨u, rest, rfl⟩ := List.exists_cons_of_length_eq_add_one hlength
    exact ⟨t :: u :: rest, .more p ht hder, congrArg Nat.succ hlength, List.map_append⟩

end

/-- **The tokens of an expression have one list of faults**, which is that of its phrase. -/
theorem faults_iff {v : Vocabulary} {ts : List Lexeme} {t : Phrase} {ds : List Diagnostic}
    (ht : Derives 0 ts t) : Faults v ts ds ↔ ds = t.told v := by
  constructor
  · intro hfaults
    obtain ⟨u, hu, rfl⟩ := hfaults.exists_derives
    rw [hu.unique ht]
  · rintro rfl
    exact ht.faults

end Grammar

/-! ## What is reported -/

namespace Compiler

variable {c : Compiler} {text : String} {t : Phrase}

/-- **Building a phrase fails for its first fault**, and for nothing else. -/
theorem of?_run_build (c : Compiler) (t : Phrase) (g : Random) :
    Fault.of? ((c.build t).run g).1 = (t.faults c.vocabulary).head? := by
  rw [t.head?_faults]
  obtain ⟨fault, g', htree, hrun⟩ | ⟨e, e', g', htree, -, hrun⟩ := c.build_spec t g
  · rw [htree, hrun]
  · rw [htree, hrun]
    rfl

/-- **The first fault in the order of the text is the one that is reported.** A formula within
the limits falls into tokens in one way, and these have one list of faults. The text compiles
exactly if the list is empty. Otherwise what a user is told is exactly the first of the list: its
line and column, its sentence and its rule. -/
theorem reports_first_fault (c : Compiler) (hnesting : Nesting.excess? text.toList = none)
    (hsentence : Sentence text.toList t) (hsize : t.size + 3 ≤ Phrase.unitLimit) :
    ∃ ts told, (∀ us, Lexes true {} text.toList us ↔ us = ts) ∧
      (∀ ds, Grammar.Faults c.vocabulary ts ds ↔ ds = told) ∧
      ∀ g, ((∃ e g', (c.parse text).run g = (.ok e, g')) ↔ told = []) ∧
        ∀ d : Diagnostic,
          (∃ fault g', (c.parse text).run g = (.error fault, g') ∧ fault.diagnostic = d) ↔
            told.head? = some d := by
  obtain ⟨ts, hts, ht⟩ := id hsentence
  refine ⟨ts, t.told c.vocabulary, fun us => ⟨fun hus => hus.unique hts, fun hus => hus ▸ hts⟩,
    fun ds => Grammar.faults_iff ht, fun g => ?_⟩
  have hread := Phrase.ofText_eq_ok_iff.mpr ⟨hnesting, hsentence, hsize⟩
  have hfirst := c.of?_run_build t g
  rw [← run_parse_of_ok hread] at hfirst
  refine ⟨?_, fun d => ?_⟩
  · rw [Phrase.told, List.map_eq_nil_iff, ← List.head?_eq_none_iff, ← hfirst,
      Fault.of?_eq_none_iff]
    exact exists_congr fun e =>
      ⟨fun ⟨g', h⟩ => congrArg Prod.fst h, fun h => ⟨_, Prod.ext h rfl⟩⟩
  · rw [Phrase.told, List.head?_map, ← hfirst, Option.map_eq_some_iff]
    refine exists_congr fun fault => ?_
    rw [Fault.of?_eq_some_iff, exists_and_right]
    exact and_congr_left fun _ =>
      ⟨fun ⟨g', h⟩ => congrArg Prod.fst h, fun h => ⟨_, Prod.ext h rfl⟩⟩

/-- The arguments of a call are looked at before they are counted, and those of an unknown
function are not. That the product is computed before the rest makes no difference. -/
theorem reports_first_fault_argument :
    let first : Diagnostic := ⟨1, 9, "Unknown variable q.", "variable"⟩
    let second : Diagnostic :=
      ⟨1, 5, "The abs function has an inappropriate number of parameters: 2.", "function_call"⟩
    let third : Diagnostic := ⟨1, 19, "Unknown function foo.", "function_name"⟩
    ∃ ts, Lexes true {} "t ^ abs(q, 1) + 2*foo(z, bar)".toList ts ∧
      Grammar.Faults {} ts [first, second, third] ∧
      ∃ fault g', (parse {} "t ^ abs(q, 1) + 2*foo(z, bar)").run (Random.ofSeed 0) =
        (.error fault, g') ∧ fault.diagnostic = first := by
  intro first second third
  let t : Phrase := .binary .xor ⟨1, 3⟩ (.var ⟨1, 1⟩ "t")
    (.binary .add ⟨1, 15⟩ (.call ⟨1, 5⟩ "abs" [.var ⟨1, 9⟩ "q", .number ⟨1, 12⟩ ['1']])
      (.binary .multiply ⟨1, 18⟩ (.number ⟨1, 17⟩ ['2'])
        (.call ⟨1, 19⟩ "foo" [.var ⟨1, 23⟩ "z", .var ⟨1, 26⟩ "bar"])))
  have hread : Phrase.ofText "t ^ abs(q, 1) + 2*foo(z, bar)".toList = .ok t := rfl
  obtain ⟨hnesting, hsentence, hsize⟩ := Phrase.ofText_eq_ok_iff.mp hread
  obtain ⟨ts, told, hts, htold, hrun⟩ := reports_first_fault {} hnesting hsentence hsize
  obtain ⟨us, hus, ht⟩ := hsentence
  obtain rfl := (hts us).mp hus
  have hall : [first, second, third] = told := (htold _).mp ht.faults
  refine ⟨us, hus, (htold _).mpr hall, ((hrun _).2 first).mpr ?_⟩
  rw [← hall]
  rfl

end Compiler

end FormulaSynth
