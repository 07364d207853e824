import TermCalc.Proofs.Term.Reading
import TermCalc.Proofs.Term.Refusal

/-!
# Reading with a cursor

A second reader for the same grammar. It keeps a position in the list of tokens, takes the token at
that position without asking whether there is one, looks the tags of operators up by the images of
tokens and builds terms by constructors that check their arguments. All of this can fail, and
nothing in it says that its functions stop calling each other; only how deep the calls are nested is
bounded from the outside. On every list of tokens, also on those that no text has, a bound of four
calls for each token and three more is not met, and the reader says what the reader on shrinking
lists says. So it never leaves the list, every look-up finds a tag, and no constructor is called
without arguments.

## Main definitions

* `Cursor.Fault`: why reading with a cursor fails
* `Cursor.expression`, `Cursor.factor`, `Cursor.statement`: the grammar
* `Cursor.parse depth tokens`: the term that the significant tokens of a list are read as
* `Cursor.Reports tokens m ts r`: at the position where `ts` begin, `m` says what `r` says

## Main results

* `Cursor.reports_expression`, `Cursor.reports_factor`, …: the reading functions
* `Cursor.parse_eq`: the two readers say the same
-/

namespace TermCalc

namespace Cursor

/-! ## The reader -/

/-- Why reading with a cursor fails. -/
inductive Fault where
  /-- The grammar stops at that position. -/
  | refused (problem : Problem) (position : Nat)
  /-- A constant has an image that denotes no number. -/
  | notANumber (image : String)
  /-- A term cannot be built. -/
  | notBuilt (e : Term.BuildError)
  /-- A token is taken where there is none. -/
  | outOfRange (position : Nat)
  /-- The tag of an operator is looked up that has none. -/
  | unknownOperator (image : String)
deriving DecidableEq, Repr

/-- A reading from the position of the cursor on. It may fail, and its calls may nest too deeply. -/
abbrev Reader := StateT Nat (ExceptT Fault Option)

/-- The tags of operators, by their images. -/
def operatorTags : List (String × String) :=
  [("=", "$let"), ("+", "$add"), ("-", "$sub"), ("*", "$mul"), ("/", "$div"), ("%", "$mod"),
    ("[", "$vec")]

/-- A term whose parts have been checked. -/
def build (r : Except Term.BuildError Term) : Reader Term :=
  match r with
  | .ok v => pure v
  | .error e => throw (.notBuilt e)

/-- The application of the tag of an operator. -/
def operate (operator : String) (args : List Term) : Reader Term :=
  match operatorTags.lookup operator with
  | some tag => build (Term.application? (.sym tag) args)
  | none => throw (.unknownOperator operator)

/-- Refuses the token at the cursor. -/
def refuse {α : Type} (problem : Problem) : Reader α := do
  throw (.refused problem (← get))

section

variable (tokens : List Token)

/-- Whether there is a token with a property some places behind the cursor. -/
def looksAt (p : Token → Bool) (offset : Nat) : Reader Bool := do
  return tokens[(← get) + offset]?.any p

/-- Takes the token at the cursor. -/
def advance : Reader Token := do
  match tokens[← get]? with
  | some t =>
    modify (· + 1)
    return t
  | none => throw (.outOfRange (← get))

/-- Takes a token with the given image. -/
def expect (image : String) : Reader Unit := do
  if ← looksAt tokens (·.image == image) 0 then
    let _ ← advance tokens
  else refuse (.expected image)

/-- Reads a symbol. -/
def symbol : Reader Term := do
  if ← looksAt tokens (·.kind == .symbol) 0 then
    let t ← advance tokens
    build (Term.symbol? t.image)
  else refuse .expectedSymbol

/-- Reads a constant. -/
def constant : Reader Term := do
  let t ← advance tokens
  match number? t.image with
  | some x => return .const x
  | none => throw (.notANumber t.image)

/-- Refuses what begins no factor. -/
def stop {α : Type} : Reader α := do
  if tokens.length ≤ (← get) then refuse .unexpectedEnd
  else refuse .unexpectedToken

/-- The calls nest too deeply. -/
def tooDeep {α : Type} : Reader α :=
  fun _ => none

-- `depth` is the number of calls that may still be nested.
mutual

/-- Reads terms with `+` and `-` between them. -/
def expression : Nat → Reader Term
  | 0 => tooDeep
  | depth + 1 => do
    let first ← term depth
    sums depth first

/-- Reads on after the expression `left`. -/
def sums : Nat → Term → Reader Term
  | 0, _ => tooDeep
  | depth + 1, left => do
    if (← looksAt tokens (·.image == "+") 0) || (← looksAt tokens (·.image == "-") 0) then
      let operator ← advance tokens
      let right ← term depth
      let sum ← operate operator.image [left, right]
      sums depth sum
    else return left

/-- Reads factors with `*`, `/` and `%` between them. -/
def term : Nat → Reader Term
  | 0 => tooDeep
  | depth + 1 => do
    let first ← factor depth
    products depth first

/-- Reads on after the term `left`. -/
def products : Nat → Term → Reader Term
  | 0, _ => tooDeep
  | depth + 1, left => do
    if (← looksAt tokens (·.image == "*") 0) || (← looksAt tokens (·.image == "/") 0) ||
        (← looksAt tokens (·.image == "%") 0) then
      let operator ← advance tokens
      let right ← factor depth
      let product ← operate operator.image [left, right]
      products depth product
    else return left

/-- Reads a factor. -/
def factor : Nat → Reader Term
  | 0 => tooDeep
  | depth + 1 => do
    if ← looksAt tokens (·.image == "-") 0 then
      let _ ← advance tokens
      let operand ← factor depth
      build (Term.application? (.sym "$neg") [operand])
    else if ← looksAt tokens (·.image == "(") 0 then
      let _ ← advance tokens
      let inner ← expression depth
      expect tokens ")"
      return inner
    else if ← looksAt tokens (·.image == "[") 0 then
      let operator ← advance tokens
      let args ← arguments depth "]"
      operate operator.image args
    else if ← looksAt tokens (·.kind == .constant) 0 then constant tokens
    else if ← looksAt tokens (·.kind == .symbol) 0 then
      let head ← symbol tokens
      if ← looksAt tokens (·.image == "(") 0 then
        let _ ← advance tokens
        let args ← arguments depth ")"
        build (Term.application? head args)
      else return head
    else stop tokens

/-- Reads expressions with commas between them, up to and including the bracket `closer`. -/
def arguments : Nat → String → Reader (List Term)
  | 0, _ => tooDeep
  | depth + 1, closer => do
    let first ← expression depth
    moreArguments depth closer [first]

/-- Reads a comma and an expression as often as possible, then the bracket `closer`. -/
def moreArguments : Nat → String → List Term → Reader (List Term)
  | 0, _, _ => tooDeep
  | depth + 1, closer, args => do
    if ← looksAt tokens (·.image == ",") 0 then
      let _ ← advance tokens
      let next ← expression depth
      moreArguments depth closer (args ++ [next])
    else
      expect tokens closer
      return args

end

/-- Reads a statement. -/
def statement (depth : Nat) : Reader Term := do
  if ← looksAt tokens (·.image == "=") 1 then
    let name ← symbol tokens
    let operator ← advance tokens
    let definition ← expression tokens depth
    operate operator.image [name, definition]
  else expression tokens depth

/-- Reads a statement that takes up all tokens. -/
def whole (depth : Nat) : Reader Term := do
  let v ← statement tokens depth
  if (← get) < tokens.length then refuse .trailingInput
  else return v

end

/-- What the significant tokens of a list are read as, unless more than `depth` calls are nested. -/
def parse (depth : Nat) (tokens : List Token) : Option (Except Fault Term) :=
  (whole (Token.significant tokens) depth).run' 0

/-! ## What the other reader says -/

/-- A failure of the other reader. -/
def Fault.ofFailure (tokens : List Token) : Parser.Failure → Fault
  | .refused problem rest => .refused problem (tokens.length - rest.length)
  | .notANumber image => .notANumber image
  | .namelessSymbol => .notBuilt .namelessSymbol

/-- The same from the outside. -/
def Fault.ofParseError : ParseError → Fault
  | .refused problem index => .refused problem index
  | .notANumber image => .notANumber image
  | .namelessSymbol => .notBuilt .namelessSymbol

/-- At the position where the tokens `ts` begin, the reading `m` ends and says what the reading `r`
of them says. The cursor is left in front of what `r` leaves. -/
def Reports {α ρ : Type} (tokens : List Token) (m : Reader α) (ts : List Token)
    (r : Except Parser.Failure ρ) (value : ρ → α) (rest : ρ → List Token) : Prop :=
  ∀ pre, tokens = pre ++ ts → m pre.length = some (match r with
    | .ok a => .ok (value a, tokens.length - (rest a).length)
    | .error e => .error (Fault.ofFailure tokens e))

variable {α β ρ σ : Type} {tokens ts : List Token} {t : Token} {m : Reader α} {g : α → Reader β}
  {r : Except Parser.Failure ρ} {value : ρ → α} {rest : ρ → List Token} {problem : Problem}

/-! ### One reading after another -/

theorem bind_of_ok {position position' : Nat} {a : α} (h : m position = some (.ok (a, position'))) :
    (m >>= g) position = g a position' := by
  change ExceptT.bind (m position) (fun p => g p.1 p.2) = _
  rw [ExceptT.bind, h]
  rfl

theorem bind_of_error {position : Nat} {fault : Fault} (h : m position = some (.error fault)) :
    (m >>= g) position = some (.error fault) := by
  change ExceptT.bind (m position) (fun p => g p.1 p.2) = _
  rw [ExceptT.bind, h]
  rfl

theorem bind_get {position : Nat} {g : Nat → Reader β} :
    (get >>= g) position = g position position :=
  bind_of_ok rfl

/-- What one reading leaves is where the next one begins. -/
theorem Reports.bind {value' : σ → β} {rest' : σ → List Token}
    {k : ρ → Except Parser.Failure σ} (hm : Reports tokens m ts r value rest)
    (hs : Parser.Stays ts rest r)
    (hg : ∀ a, r = .ok a → Reports tokens (g (value a)) (rest a) (k a) value' rest') :
    Reports tokens (m >>= g) ts (r >>= k) value' rest' := by
  intro pre hpre
  cases r with
  | error e => exact bind_of_error (hm pre hpre)
  | ok a =>
    obtain ⟨us, hus⟩ : rest a <:+ ts := hs
    have hsplit : tokens = (pre ++ us) ++ rest a := by rw [hpre, ← hus, List.append_assoc]
    have hposition : tokens.length - (rest a).length = (pre ++ us).length := by
      rw [hsplit, List.length_append, Nat.add_sub_cancel]
    refine (bind_of_ok (hm pre hpre)).trans ?_
    rw [hposition]
    exact hg a rfl _ hsplit

/-- What is read last may be built into something. -/
theorem Reports.map {value' : σ → α} {rest' : σ → List Token} {k : ρ → σ}
    (hm : Reports tokens m ts r value rest) (hvalue : ∀ a, value' (k a) = value a)
    (hrest : ∀ a, rest' (k a) = rest a) :
    Reports tokens m ts (r >>= fun a => .ok (k a)) value' rest' := by
  intro pre hpre
  rw [hm pre hpre]
  cases r with
  | error e => rfl
  | ok a =>
    change _ = some (Except.ok (value' (k a), tokens.length - (rest' (k a)).length))
    rw [hvalue, hrest]

/-! ### Steps of the cursor -/

theorem reports_pure {v : α} {a : ρ} (hvalue : v = value a) (hrest : rest a = ts) :
    Reports tokens (pure v) ts (.ok a) value rest := by
  rintro pre rfl
  have hposition : (pre ++ ts).length - (rest a).length = pre.length := by
    rw [hrest, List.length_append, Nat.add_sub_cancel]
  simp only [hposition, ← hvalue]
  rfl

theorem reports_refuse : Reports tokens (refuse problem) ts (.error (.refused problem ts)) value
    rest := by
  rintro pre rfl
  have hposition : (pre ++ ts).length - ts.length = pre.length := by
    rw [List.length_append, Nat.add_sub_cancel]
  simp only [Fault.ofFailure, hposition]
  rfl

theorem reports_throw {fault : Fault} {e : Parser.Failure} (h : fault = Fault.ofFailure tokens e) :
    Reports tokens (throw fault) ts (.error e) value rest := by
  rintro pre -
  rw [h]
  rfl

/-- What is seen some places behind the cursor is what is there. -/
theorem reports_looksAt {p : Token → Bool} {offset : Nat} {g : Bool → Reader α}
    (h : Reports tokens (g (ts[offset]?.any p)) ts r value rest) :
    Reports tokens (looksAt tokens p offset >>= g) ts r value rest := by
  intro pre hpre
  have hlook : tokens[pre.length + offset]? = ts[offset]? := by
    rw [hpre, List.getElem?_append_right (Nat.le_add_right _ _), Nat.add_sub_cancel_left]
  rw [← h pre hpre, ← hlook]
  exact bind_of_ok rfl

/-- A look at a token decides between two ways to go on as the token itself does. -/
theorem reports_ite {p : Token → Bool} {P : Prop} [Decidable P] {x y : Reader α}
    {r' : Except Parser.Failure ρ} (hp : p t = true ↔ P)
    (hx : P → Reports tokens x (t :: ts) r value rest)
    (hy : ¬ P → Reports tokens y (t :: ts) r' value rest) :
    Reports tokens (looksAt tokens p 0 >>= fun b => if b = true then x else y) (t :: ts)
      (if P then r else r') value rest := by
  have hsees : (t :: ts)[0]?.any p = true ↔ P := hp
  refine reports_looksAt ?_
  by_cases h : P
  · rw [if_pos h, if_pos (hsees.2 h)]
    exact hx h
  · rw [if_neg h, if_neg (mt hsees.1 h)]
    exact hy h

/-- Nothing is seen at the end. -/
theorem reports_else_nil {p : Token → Bool} {x y : Reader α}
    (h : Reports tokens y [] r value rest) :
    Reports tokens (looksAt tokens p 0 >>= fun b => if b = true then x else y) [] r value rest :=
  reports_looksAt h

/-- A token that is there can be taken. -/
theorem reports_advance {g : Token → Reader α} (h : Reports tokens (g t) ts r value rest) :
    Reports tokens (advance tokens >>= g) (t :: ts) r value rest := by
  intro pre hpre
  have hget : tokens[pre.length]? = some t := by
    rw [hpre, List.getElem?_append_right (Nat.le_refl _), Nat.sub_self]
    rfl
  have hadvance : advance tokens pre.length = some (.ok (t, pre.length + 1)) := by
    refine bind_get.trans ?_
    simp only [hget]
    rfl
  rw [bind_of_ok hadvance, ← h (pre ++ [t]) (by simp [hpre]), List.length_append,
    List.length_singleton]

/-- A list that is not empty can be what a tag is applied to. -/
theorem build_application? {head : Term} {args : List Term} (h : args ≠ []) :
    build (Term.application? head args) = pure (.app head args) := by
  rw [Term.application?, if_neg (mt List.isEmpty_iff.1 h)]
  rfl

theorem operate_of_lookup {operator tag : String} {args : List Term}
    (h : operatorTags.lookup operator = some tag) (hargs : args ≠ []) :
    operate operator args = pure (.app (.sym tag) args) := by
  rw [operate, h]
  exact build_application? hargs

/-! ### Single tokens -/

theorem reports_expect (image : String) (ts : List Token) :
    Reports tokens (expect tokens image) ts (Parser.close image ts) Parser.Read.value
      Parser.Read.rest := by
  match ts with
  | [] => exact reports_else_nil reports_refuse
  | t :: ts =>
    rw [Parser.close]
    exact reports_ite beq_iff_eq (fun _ => reports_advance (reports_pure rfl rfl))
      fun _ => reports_refuse

theorem reports_symbol (ts : List Token) :
    Reports tokens (symbol tokens) ts (Parser.symbol ts) Parser.Read.value Parser.Read.rest := by
  match ts with
  | [] => exact reports_else_nil reports_refuse
  | t :: ts =>
    rw [Parser.symbol, ite_not]
    refine reports_ite beq_iff_eq (fun _ => reports_advance ?_) fun _ => reports_refuse
    by_cases hn : t.image = ""
    · rw [Term.symbol?, if_pos hn, if_pos (beq_iff_eq.2 hn)]
      exact reports_throw rfl
    · rw [Term.symbol?, if_neg hn, if_neg (mt beq_iff_eq.1 hn)]
      exact reports_pure rfl rfl

theorem reports_constant (t : Token) (ts : List Token) :
    Reports tokens (constant tokens) (t :: ts) (Parser.constant t ts) Parser.Read.value
      Parser.Read.rest := by
  refine reports_advance ?_
  rw [Parser.constant]
  cases number? t.image with
  | none => exact reports_throw rfl
  | some x => exact reports_pure rfl rfl

/-- A symbol that has a name is taken. -/
theorem reports_symbol_of_named {g : Term → Reader α} (hk : t.kind = .symbol) (hn : t.image ≠ "")
    (h : Reports tokens (g (.sym t.image)) ts r value rest) :
    Reports tokens (symbol tokens >>= g) (t :: ts) r value rest := by
  have hread : Reports tokens _ _ _ _ _ := reports_symbol (t :: ts)
  have hstays := Parser.stays_symbol (t :: ts)
  rw [Parser.symbol, if_neg (not_not.2 hk), if_neg hn] at hread hstays
  refine hread.bind hstays (k := fun _ => r) fun a ha => ?_
  cases ha
  exact h

theorem reports_symbol_of_nameless {g : Term → Reader α} (hk : t.kind = .symbol)
    (hn : t.image = "") :
    Reports tokens (symbol tokens >>= g) (t :: ts) (.error .namelessSymbol) value rest := by
  have hread : Reports tokens _ _ _ _ _ := reports_symbol (t :: ts)
  rw [Parser.symbol, if_neg (not_not.2 hk), if_pos hn] at hread
  exact fun pre hpre => bind_of_error (hread pre hpre)

theorem reports_stop_nil :
    Reports tokens (stop tokens : Reader α) [] (.error (.refused .unexpectedEnd [])) value
      rest := by
  intro pre hpre
  have hrefuse : Reports tokens (refuse .unexpectedEnd) [] (.error (.refused .unexpectedEnd []))
      value rest := reports_refuse
  rw [← hrefuse pre hpre]
  refine bind_get.trans ?_
  rw [if_pos (by simp [hpre])]

theorem reports_stop_cons :
    Reports tokens (stop tokens : Reader α) (t :: ts) (.error (.refused .unexpectedToken (t :: ts)))
      value rest := by
  intro pre hpre
  have hrefuse : Reports tokens (refuse .unexpectedToken) (t :: ts)
      (.error (.refused .unexpectedToken (t :: ts))) value rest := reports_refuse
  rw [← hrefuse pre hpre]
  refine bind_get.trans ?_
  rw [if_neg (by simp [hpre])]

theorem arguments_ne_nil {closer : String} {args : Parser.Read (List Term) ts}
    (h : Parser.arguments closer ts = .ok args) : args.value ≠ [] := by
  have hgiven : Parser.Gives (Parser.arguments closer ts) args.value args.rest :=
    ⟨args, h, rfl, rfl⟩
  obtain ⟨first, us, -, others, hargs, -⟩ := Parser.gives_arguments.1 hgiven
  rw [hargs]
  exact List.cons_ne_nil first others

/-! ### Operators -/

theorem looksAt_sum {t : Token} (h : Parser.sumTag? t = none) :
    (t.image == "+" || t.image == "-") = false := by
  rw [Parser.sumTag?] at h
  split_ifs at h with hplus hminus
  simp [hplus, hminus]

theorem lookup_sum {t : Token} {tag : String} (h : Parser.sumTag? t = some tag) :
    (t.image == "+" || t.image == "-") = true ∧ operatorTags.lookup t.image = some tag := by
  rw [Parser.sumTag?] at h
  split_ifs at h with hplus hminus
  · rw [hplus, ← Option.some.inj h]
    decide
  · rw [hminus, ← Option.some.inj h]
    decide

theorem looksAt_product {t : Token} (h : Parser.productTag? t = none) :
    (t.image == "*" || t.image == "/" || t.image == "%") = false := by
  rw [Parser.productTag?] at h
  split_ifs at h with htimes hover hmod
  simp [htimes, hover, hmod]

theorem lookup_product {t : Token} {tag : String} (h : Parser.productTag? t = some tag) :
    (t.image == "*" || t.image == "/" || t.image == "%") = true ∧
      operatorTags.lookup t.image = some tag := by
  rw [Parser.productTag?] at h
  split_ifs at h with htimes hover hmod
  · rw [htimes, ← Option.some.inj h]
    decide
  · rw [hover, ← Option.some.inj h]
    decide
  · rw [hmod, ← Option.some.inj h]
    decide

/-! ### Expressions -/

-- Induction on the depth: each call is one level deeper, and at most four are nested before a token
-- is taken.
mutual

theorem reports_expression {depth : Nat} (ts : List Token) (hdepth : 4 * ts.length + 3 ≤ depth) :
    Reports tokens (expression tokens depth) ts (Parser.expression ts) Parser.Read.value
      Parser.Read.rest := by
  match depth with
  | depth + 1 =>
    rw [expression, Parser.expression]
    refine (reports_term ts (by omega)).bind (Parser.stays_term ts) fun first _ => ?_
    have := first.shorter
    exact (reports_sums first.value first.rest (by omega)).map (fun _ => rfl) fun _ => rfl
termination_by depth

theorem reports_sums {depth : Nat} (left : Term) (ts : List Token)
    (hdepth : 4 * ts.length + 1 ≤ depth) :
    Reports tokens (sums tokens depth left) ts (Parser.sums left ts) Parser.ReadOn.value
      Parser.ReadOn.rest := by
  match depth, ts with
  | depth + 1, [] =>
    rw [sums, Parser.sums]
    exact reports_looksAt (reports_looksAt (reports_pure rfl rfl))
  | depth + 1, t :: ts =>
    rw [List.length_cons] at hdepth
    rw [sums, Parser.sums]
    refine reports_looksAt (reports_looksAt ?_)
    change Reports tokens (if (t.image == "+" || t.image == "-") = true then _ else _) _ _ _ _
    cases htag : Parser.sumTag? t with
    | none =>
      rw [looksAt_sum htag]
      exact reports_pure rfl rfl
    | some tag =>
      obtain ⟨hsees, hlookup⟩ := lookup_sum htag
      rw [if_pos hsees]
      refine reports_advance ((reports_term ts (by omega)).bind (Parser.stays_term ts) ?_)
      intro right _
      have := right.shorter
      rw [operate_of_lookup hlookup (List.cons_ne_nil _ _), pure_bind]
      exact (reports_sums _ right.rest (by omega)).map (fun _ => rfl) fun _ => rfl
termination_by depth

theorem reports_term {depth : Nat} (ts : List Token) (hdepth : 4 * ts.length + 2 ≤ depth) :
    Reports tokens (term tokens depth) ts (Parser.term ts) Parser.Read.value Parser.Read.rest := by
  match depth with
  | depth + 1 =>
    rw [term, Parser.term]
    refine (reports_factor ts (by omega)).bind (Parser.stays_factor ts) fun first _ => ?_
    have := first.shorter
    exact (reports_products first.value first.rest (by omega)).map (fun _ => rfl) fun _ => rfl
termination_by depth

theorem reports_products {depth : Nat} (left : Term) (ts : List Token)
    (hdepth : 4 * ts.length + 1 ≤ depth) :
    Reports tokens (products tokens depth left) ts (Parser.products left ts) Parser.ReadOn.value
      Parser.ReadOn.rest := by
  match depth, ts with
  | depth + 1, [] =>
    rw [products, Parser.products]
    exact reports_looksAt (reports_looksAt (reports_looksAt (reports_pure rfl rfl)))
  | depth + 1, t :: ts =>
    rw [List.length_cons] at hdepth
    rw [products, Parser.products]
    refine reports_looksAt (reports_looksAt (reports_looksAt ?_))
    change Reports tokens (if (t.image == "*" || t.image == "/" || t.image == "%") = true
      then _ else _) _ _ _ _
    cases htag : Parser.productTag? t with
    | none =>
      rw [looksAt_product htag]
      exact reports_pure rfl rfl
    | some tag =>
      obtain ⟨hsees, hlookup⟩ := lookup_product htag
      rw [if_pos hsees]
      refine reports_advance ((reports_factor ts (by omega)).bind (Parser.stays_factor ts) ?_)
      intro right _
      have := right.shorter
      rw [operate_of_lookup hlookup (List.cons_ne_nil _ _), pure_bind]
      exact (reports_products _ right.rest (by omega)).map (fun _ => rfl) fun _ => rfl
termination_by depth

theorem reports_factor {depth : Nat} (ts : List Token) (hdepth : 4 * ts.length + 1 ≤ depth) :
    Reports tokens (factor tokens depth) ts (Parser.factor ts) Parser.Read.value
      Parser.Read.rest := by
  match depth, ts with
  | depth + 1, [] =>
    rw [factor, Parser.factor.eq_def]
    refine reports_else_nil (reports_else_nil (reports_else_nil (reports_else_nil ?_)))
    exact reports_else_nil reports_stop_nil
  | depth + 1, t :: ts =>
    rw [List.length_cons] at hdepth
    rw [factor, Parser.factor.eq_def]
    dsimp only
    refine reports_ite beq_iff_eq (fun _ => reports_advance ?_) fun _ => ?_
    · refine (reports_factor ts (by omega)).bind (Parser.stays_factor ts) fun operand _ => ?_
      rw [build_application? (List.cons_ne_nil _ _)]
      exact reports_pure rfl rfl
    refine reports_ite beq_iff_eq (fun _ => reports_advance ?_) fun _ => ?_
    · refine (reports_expression ts (by omega)).bind (Parser.stays_expression ts) fun inner _ => ?_
      refine (reports_expect ")" inner.rest).bind (Parser.stays_close _ _) fun closed _ => ?_
      exact reports_pure rfl rfl
    refine reports_ite beq_iff_eq (fun hvec => reports_advance ?_) fun _ => ?_
    · have hlookup : operatorTags.lookup t.image = some "$vec" := by
        rw [hvec]
        decide
      refine (reports_arguments "]" ts (by omega)).bind (Parser.stays_arguments "]" ts) ?_
      intro args hargs
      rw [operate_of_lookup hlookup (arguments_ne_nil hargs)]
      exact reports_pure rfl rfl
    refine reports_ite beq_iff_eq (fun _ => reports_constant t ts) fun _ => ?_
    refine reports_ite beq_iff_eq (fun hsym => ?_) fun _ => reports_stop_cons
    by_cases hname : t.image = ""
    · rw [if_pos hname]
      exact reports_symbol_of_nameless hsym hname
    rw [if_neg hname]
    refine reports_symbol_of_named hsym hname ?_
    cases ts with
    | nil => exact reports_else_nil (reports_pure rfl rfl)
    | cons o ts =>
      rw [List.length_cons] at hdepth
      dsimp only
      refine reports_ite beq_iff_eq (fun _ => reports_advance ?_) fun _ => reports_pure rfl rfl
      refine (reports_arguments ")" ts (by omega)).bind (Parser.stays_arguments ")" ts) ?_
      intro args hargs
      rw [build_application? (arguments_ne_nil hargs)]
      exact reports_pure rfl rfl
termination_by depth

theorem reports_arguments {depth : Nat} (closer : String) (ts : List Token)
    (hdepth : 4 * ts.length + 4 ≤ depth) :
    Reports tokens (arguments tokens depth closer) ts (Parser.arguments closer ts)
      Parser.Read.value Parser.Read.rest := by
  match depth with
  | depth + 1 =>
    rw [arguments, Parser.arguments]
    refine (reports_expression ts (by omega)).bind (Parser.stays_expression ts) fun first _ => ?_
    have := first.shorter
    refine (reports_moreArguments closer [first.value] first.rest (by omega)).map ?_ ?_
    · exact fun _ => rfl
    · exact fun _ => rfl
termination_by depth

/-- The arguments that have been read stand in front of those that follow. -/
theorem reports_moreArguments {depth : Nat} (closer : String) (args : List Term) (ts : List Token)
    (hdepth : 4 * ts.length + 1 ≤ depth) :
    Reports tokens (moreArguments tokens depth closer args) ts (Parser.moreArguments closer ts)
      (fun a => args ++ a.value) Parser.Read.rest := by
  match depth, ts with
  | depth + 1, [] =>
    rw [moreArguments, Parser.moreArguments]
    exact reports_else_nil fun pre hpre => bind_of_error (reports_expect closer [] pre hpre)
  | depth + 1, t :: ts =>
    rw [List.length_cons] at hdepth
    rw [moreArguments, Parser.moreArguments]
    refine reports_ite beq_iff_eq (fun _ => reports_advance ?_) fun _ => ?_
    · refine (reports_expression ts (by omega)).bind (Parser.stays_expression ts) fun next _ => ?_
      have := next.shorter
      refine (reports_moreArguments closer (args ++ [next.value]) next.rest (by omega)).map ?_ ?_
      · exact fun others => (List.append_assoc args [next.value] others.value).symm
      · exact fun _ => rfl
    · refine (reports_expect closer (t :: ts)).bind (Parser.stays_close _ _) fun closed _ => ?_
      exact reports_pure (List.append_nil args).symm rfl
termination_by depth

end

/-! ### Statements -/

variable {depth : Nat}

/-- The sign of an assignment has been seen, so it can be taken as any token. -/
theorem reports_advance_close {image : String} {g : Token → Reader α}
    {k : Parser.Read Unit (t :: ts) → Except Parser.Failure ρ} (ht : t.image = image)
    (h : Reports tokens (g t) ts (k ⟨(), ts, Nat.lt_succ_self _⟩) value rest) :
    Reports tokens (advance tokens >>= g) (t :: ts) (Parser.close image (t :: ts) >>= k) value
      rest := by
  rw [Parser.close, if_pos ht]
  exact reports_advance h

theorem reports_statement (ts : List Token) (hdepth : 4 * ts.length + 3 ≤ depth) :
    Reports tokens (statement tokens depth) ts (Parser.statement ts) Parser.Read.value
      Parser.Read.rest := by
  rcases ts with _ | ⟨t, _ | ⟨s, us⟩⟩
  · exact reports_looksAt (reports_expression [] hdepth)
  · exact reports_looksAt (reports_expression [t] hdepth)
  · rw [Parser.statement]
    refine reports_looksAt ?_
    have hsees : (t :: s :: us)[1]?.any (·.image == "=") = Parser.isAssignment (t :: s :: us) := rfl
    rw [hsees]
    by_cases ha : Parser.isAssignment (t :: s :: us) = true
    · have hs : s.image = "=" := beq_iff_eq.1 ha
      have hlookup : operatorTags.lookup s.image = some "$let" := by
        rw [hs]
        decide
      rw [List.length_cons, List.length_cons] at hdepth
      rw [if_pos ha, if_pos ha]
      refine (reports_symbol (t :: s :: us)).bind (Parser.stays_symbol _) fun name hname => ?_
      obtain ⟨name, rest, hshort⟩ := name
      obtain ⟨_, ⟨⟩, -⟩ := Parser.gives_symbol.1 ⟨_, hname, rfl, rfl⟩
      refine reports_advance_close hs ?_
      refine (reports_expression us (by omega)).bind (Parser.stays_expression us) ?_
      intro definition _
      rw [operate_of_lookup hlookup (List.cons_ne_nil _ _)]
      exact reports_pure rfl rfl
    · rw [if_neg ha, if_neg ha]
      exact reports_expression _ hdepth

/-- The tokens are all read when the cursor stands behind the last of them. -/
theorem reports_whole (ts : List Token) (hdepth : 4 * ts.length + 3 ≤ depth) :
    Reports tokens (whole tokens depth) ts (Parser.whole ts) id (fun _ => []) := by
  rw [Parser.whole]
  refine (reports_statement ts hdepth).bind (Parser.stays_statement ts) fun read _ => ?_
  obtain ⟨v, rest, hshort⟩ := read
  intro pre hpre
  refine bind_get.trans ?_
  cases rest with
  | nil =>
    rw [if_neg (by simp [hpre])]
    have hpure : Reports tokens (pure v) [] (.ok v) id fun _ => [] := reports_pure rfl rfl
    exact hpure pre hpre
  | cons t rest =>
    have hrefuse : Reports tokens (refuse .trailingInput : Reader Term) (t :: rest)
        (.error (.refused .trailingInput (t :: rest))) id fun _ => [] := reports_refuse
    rw [if_pos (by simp [hpre])]
    exact hrefuse pre hpre

/-- **The two readers say the same.** Reading with a cursor ends on every list of tokens, with no
more than four calls nested for each of them and three more. It gives the term that the other reader
gives, or it fails where that one fails and for the same reason. -/
theorem parse_eq (h : 4 * (Token.significant tokens).length + 3 ≤ depth) :
    parse depth tokens = some ((Term.ofTokens? tokens).mapError Fault.ofParseError) := by
  have hwhole : Reports (Token.significant tokens) _ _ _ _ _ :=
    reports_whole (Token.significant tokens) h
  rw [parse, Term.ofTokens?, Term.ofSignificant?]
  change ExceptT.map Prod.fst (whole (Token.significant tokens) depth ([] : List Token).length) = _
  rw [ExceptT.map, hwhole [] rfl]
  cases Parser.whole (Token.significant tokens) with
  | ok v => rfl
  | error e =>
    cases e with
    | refused problem rest => rfl
    | notANumber image => rfl
    | namelessSymbol => rfl

/-- Only what is a failure of the other reader can be a fault. -/
theorem parse_ne_error {fault : Fault} (h : 4 * (Token.significant tokens).length + 3 ≤ depth)
    (hfault : ∀ e, Fault.ofParseError e ≠ fault) : parse depth tokens ≠ some (.error fault) := by
  rw [parse_eq h]
  cases Term.ofTokens? tokens with
  | ok v => exact fun hv => nomatch hv
  | error e => exact fun he => hfault e (Except.error.inj (Option.some.inj he))

end Cursor

end TermCalc
