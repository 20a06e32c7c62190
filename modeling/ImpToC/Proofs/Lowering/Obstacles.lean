import ImpToC.Proofs.Lowering.Writers
import ImpToC.Proofs.Parsing.Numbers
import ImpToC.Proofs.Syntax.Preorder

/-!
# What stands in the way of code

Whatever the types on record are, the lowering of a program stops at an obstacle, and only if
there is one: an expression without a type, a variable that is read and has none, a negation of
type string, or an operation of type string that is not a sum.
-/

namespace ImpToC

/-- An expression is in the way of code, over some types on record, and what is said of it. -/
inductive Expr.Obstacle (types : Table Nat Ty) : Expr → Fault → Prop
  | untyped {e : Expr} : types.get? e.id = none →
      Obstacle types e ((Cause.untypedExpression e.id).fault e.location)
  | negation (mark : Mark) (operand : Expr) : types.get? mark.id = some .string →
      Obstacle types (.negate mark operand) (Cause.negatedString.fault mark.location)
  | operation (mark : Mark) {op : BinOp} (left right : Expr) :
      types.get? mark.id = some .string → op ≠ .add →
      Obstacle types (.binary mark op left right) ((Cause.stringOperator op).fault mark.location)

mutual

/-- The variables that are read in a statement, with the places where they are. -/
def Stmt.reads : Stmt → List (Location × String)
  | .read location name => [(location, name)]
  | .print .. | .assign .. => []
  | .branch _ _ yes no => Stmt.readsAll yes ++ Stmt.readsAll no
  | .loop _ _ body => Stmt.readsAll body

/-- The variables that are read in some statements, with the places where they are. -/
def Stmt.readsAll : List Stmt → List (Location × String)
  | [] => []
  | s :: rest => Stmt.reads s ++ Stmt.readsAll rest

end

/-- The variables that are read in a program, with the places where they are. -/
def Program.reads (p : Program) : List (Location × String) := Stmt.readsAll p.statements

/-- Among some expressions and some variables that are read there is an obstacle, and what is
said of it. -/
inductive Obstructed (symbols : Table String Ty) (types : Table Nat Ty) (es : List Expr)
    (reads : List (Location × String)) : Fault → Prop
  | expression {e : Expr} {f : Fault} : e ∈ es → e.Obstacle types f →
      Obstructed symbols types es reads f
  | read {location : Location} {name : String} : (location, name) ∈ reads →
      symbols.get? name = none →
      Obstructed symbols types es reads ((Cause.missingVariable name).fault location)

section Obstructed

variable {symbols : Table String Ty} {types : Table Nat Ty} {es es' : List Expr}
  {reads reads' : List (Location × String)} {f : Fault} {type : Ty}

@[simp] theorem not_obstructed_nil : ¬ Obstructed symbols types [] [] f := by
  rintro (⟨he, -⟩ | ⟨hread, -⟩)
  · cases he
  · cases hread

theorem obstructed_append_iff :
    Obstructed symbols types (es ++ es') (reads ++ reads') f ↔
      Obstructed symbols types es reads f ∨ Obstructed symbols types es' reads' f := by
  constructor
  · rintro (⟨he, h⟩ | ⟨hread, h⟩)
    · exact (List.mem_append.mp he).imp (.expression · h) (.expression · h)
    · exact (List.mem_append.mp hread).imp (.read · h) (.read · h)
  · rintro ((⟨he, h⟩ | ⟨hread, h⟩) | (⟨he, h⟩ | ⟨hread, h⟩))
    · exact .expression (List.mem_append_left es' he) h
    · exact .read (List.mem_append_left reads' hread) h
    · exact .expression (List.mem_append_right es he) h
    · exact .read (List.mem_append_right reads hread) h

/-- It makes no difference in which order the expressions come. -/
theorem obstructed_perm_iff (h : es.Perm es') :
    Obstructed symbols types es reads f ↔ Obstructed symbols types es' reads f := by
  constructor
  · rintro (⟨he, hobstacle⟩ | ⟨hread, hnone⟩)
    · exact .expression (h.mem_iff.mp he) hobstacle
    · exact .read hread hnone
  · rintro (⟨he, hobstacle⟩ | ⟨hread, hnone⟩)
    · exact .expression (h.mem_iff.mpr he) hobstacle
    · exact .read hread hnone

/-- No variable is read in expressions. -/
theorem obstructed_behind_iff :
    Obstructed symbols types (es ++ es') reads f ↔
      Obstructed symbols types es [] f ∨ Obstructed symbols types es' reads f := by
  rw [← obstructed_append_iff, List.nil_append]

theorem obstructed_singleton_iff {e : Expr} :
    Obstructed symbols types [e] [] f ↔ e.Obstacle types f := by
  constructor
  · rintro (⟨he, h⟩ | ⟨hread, -⟩)
    · rwa [← List.mem_singleton.mp he]
    · cases hread
  · exact .expression (List.mem_singleton_self e)

/-- A literal or a variable that has a type is no obstacle. -/
theorem Expr.not_obstacle_of_leaf {e : Expr} (hleaf : e.operands = [])
    (htype : types.get? e.id = some type) : ¬ e.Obstacle types f := by
  intro h
  cases h with
  | untyped hnone => cases hnone.symm.trans htype
  | negation => cases hleaf
  | operation => cases hleaf

theorem Expr.obstacle_negate_iff {mark : Mark} {operand : Expr}
    (htype : types.get? mark.id = some type) :
    (Expr.negate mark operand).Obstacle types f ↔
      type = .string ∧ f = Cause.negatedString.fault mark.location := by
  constructor
  · intro h
    cases h with
    | untyped hnone => cases hnone.symm.trans htype
    | negation _ _ hstring => exact ⟨Option.some.inj (htype.symm.trans hstring), rfl⟩
  · rintro ⟨rfl, rfl⟩
    exact .negation mark operand htype

theorem Expr.obstacle_binary_iff {mark : Mark} {op : BinOp} {left right : Expr}
    (htype : types.get? mark.id = some type) :
    (Expr.binary mark op left right).Obstacle types f ↔
      type = .string ∧ op ≠ .add ∧ f = (Cause.stringOperator op).fault mark.location := by
  constructor
  · intro h
    cases h with
    | untyped hnone => cases hnone.symm.trans htype
    | operation _ _ _ hstring hop =>
        exact ⟨Option.some.inj (htype.symm.trans hstring), hop, rfl⟩
  · rintro ⟨rfl, hop, rfl⟩
    exact .operation mark left right htype hop

/-- What is said of an obstacle is said of the making of code. -/
theorem Obstructed.family (h : Obstructed symbols types es reads f) :
    f.cause.family = .generation := by
  cases h with
  | expression _ hobstacle => cases hobstacle <;> rfl
  | read => rfl

/-- Nothing is in the way just if every expression has a type, every variable that is read has
one, no negation is a string, and no operation is one but a sum. -/
theorem forall_not_obstructed_iff :
    (∀ f, ¬ Obstructed symbols types es reads f) ↔
      (∀ e ∈ es, ∃ type, types.get? e.id = some type) ∧
      (∀ location name, (location, name) ∈ reads → ∃ type, symbols.get? name = some type) ∧
      (∀ mark operand, .negate mark operand ∈ es → types.get? mark.id ≠ some .string) ∧
      ∀ mark op left right, .binary mark op left right ∈ es →
        types.get? mark.id = some .string → op = .add := by
  constructor
  · intro h
    refine ⟨fun e he => ?_, fun l name hread => ?_, fun mark operand he hstring => ?_,
      fun mark op left right he hstring => ?_⟩
    · exact Option.ne_none_iff_exists'.mp fun hnone => h _ (.expression he (.untyped hnone))
    · exact Option.ne_none_iff_exists'.mp fun hnone => h _ (.read hread hnone)
    · exact h _ (.expression he (.negation mark operand hstring))
    · exact Decidable.byContradiction fun hop =>
        h _ (.expression he (.operation mark left right hstring hop))
  · rintro ⟨htyped, hdeclared, hnegations, hoperations⟩ f (⟨he, hobstacle⟩ | ⟨hread, hnone⟩)
    · cases hobstacle with
      | untyped hnone =>
          obtain ⟨type, htype⟩ := htyped _ he
          cases hnone.symm.trans htype
      | negation mark operand hstring => exact hnegations mark operand he hstring
      | operation mark left right hstring hop => exact hop (hoperations _ _ _ _ he hstring)
    · obtain ⟨type, htype⟩ := hdeclared _ _ hread
      cases hnone.symm.trans htype

end Obstructed

namespace C

variable {α β : Type} {symbols : Table String Ty} {types : Table Nat Ty}
  {faults faults' : Fault → Prop}

/-- A part of the lowering over some tables stops for one of some faults, or there is none of
them and the tables stay as they are. -/
def StopsFor (symbols : Table String Ty) (types : Table Nat Ty) (faults : Fault → Prop)
    (x : Lower α) : Prop :=
  ∀ g, g.symbols = symbols → g.types = types →
    match x g with
    | .ok _ g' => g'.symbols = symbols ∧ g'.types = types ∧ ∀ f, ¬ faults f
    | .error f _ => faults f

namespace StopsFor

theorem of_ok {x : Lower α}
    (h : ∀ g, g.symbols = symbols → g.types = types →
      ∃ a g', x g = .ok a g' ∧ g'.symbols = symbols ∧ g'.types = types)
    (hnone : ∀ f, ¬ faults f) : StopsFor symbols types faults x := by
  intro g hsymbols htypes
  obtain ⟨a, g', hok, hsymbols', htypes'⟩ := h g hsymbols htypes
  rw [hok]
  exact ⟨hsymbols', htypes', hnone⟩

theorem ret (a : α) (hnone : ∀ f, ¬ faults f) :
    StopsFor symbols types faults (pure a : Lower α) :=
  of_ok (fun g hsymbols htypes => ⟨a, g, rfl, hsymbols, htypes⟩) hnone

theorem define (before : List Instr) (type : Ty) (value : Value) (hnone : ∀ f, ¬ faults f) :
    StopsFor symbols types faults (define before type value) :=
  of_ok (fun _ hsymbols htypes => ⟨_, _, rfl, hsymbols, htypes⟩) hnone

theorem raise {f : Fault} (h : faults f) : StopsFor symbols types faults (throw f : Lower α) :=
  fun _ _ _ => h

theorem read {next : Generator → Lower α}
    (h : ∀ g, g.symbols = symbols → g.types = types → StopsFor symbols types faults (next g)) :
    StopsFor symbols types faults (get >>= next) :=
  fun g hsymbols htypes => h g hsymbols htypes g hsymbols htypes

theorem bind {x : Lower α} {next : α → Lower β} (h : StopsFor symbols types faults x)
    (hnext : ∀ a, StopsFor symbols types faults' (next a)) :
    StopsFor symbols types (fun f => faults f ∨ faults' f) (x >>= next) := by
  intro g hsymbols htypes
  have hx := h g hsymbols htypes
  cases hrun : x g with
  | error f g' =>
      rw [hrun] at hx
      rw [bind_of_error hrun]
      exact .inl hx
  | ok a m =>
      rw [hrun] at hx
      rw [bind_of_ok hrun]
      obtain ⟨hsymbols', htypes', hnone⟩ := hx
      have ha := hnext a m hsymbols' htypes'
      cases hrun' : next a m with
      | error f g' =>
          rw [hrun'] at ha
          exact .inr ha
      | ok b g' =>
          rw [hrun'] at ha
          exact ⟨ha.1, ha.2.1, fun f hf => hf.elim (hnone f) (ha.2.2 f)⟩

theorem congr {x : Lower α} (h : StopsFor symbols types faults x)
    (hfaults : ∀ f, faults' f ↔ faults f) : StopsFor symbols types faults' x := by
  rwa [funext fun f => propext (hfaults f)]

/-- A part of the lowering with something at its end that cannot stop it. -/
theorem thenRet {x : Lower α} (next : α → β) (h : StopsFor symbols types faults x) :
    StopsFor symbols types faults (x >>= fun a => pure (next a)) :=
  (h.bind fun a => ret (next a) fun _ => not_false).congr fun _ => (or_iff_left not_false).symm

/-- The type of an expression is looked up. -/
theorem typed {mark : Mark} {next : Ty → Lower α}
    (hnone : types.get? mark.id = none →
      faults ((Cause.untypedExpression mark.id).fault mark.location))
    (hsome : ∀ type, types.get? mark.id = some type → StopsFor symbols types faults (next type)) :
    StopsFor symbols types faults (typeOf mark >>= next) := by
  unfold typeOf
  rw [bind_assoc]
  refine read fun g hsymbols htypes => ?_
  rw [htypes]
  cases hfound : types.get? mark.id with
  | none => exact raise (hnone hfound)
  | some type => exact hsome type hfound

end StopsFor

/-! ## Expressions -/

theorem stopsFor_operation (mark : Mark) (type : Ty) (op : BinOp) (left right : Place) :
    StopsFor symbols types
      (fun f => type = .string ∧ op ≠ .add ∧ f = (Cause.stringOperator op).fault mark.location)
      (operation mark type op left right) := by
  unfold operation
  split
  next hstring => exact .ret _ fun f h => hstring h.1
  next hstring =>
    split
    next hop => exact .ret _ fun f h => h.2.1 hop
    next hop => exact .raise ⟨Decidable.not_not.mp hstring, hop, rfl⟩

/-- The lowering of an expression stops at an obstacle in it. -/
theorem stopsFor_lowerExpr (e : Expr) :
    StopsFor symbols types (Obstructed symbols types e.postorder []) (lowerExpr e) := by
  have huntyped (e : Expr) (hnone : types.get? e.id = none) :
      Obstructed symbols types e.postorder []
        ((Cause.untypedExpression e.id).fault e.location) :=
    .expression e.mem_postorder_self (.untyped hnone)
  have hleaf {type : Ty} (e : Expr) (hpostorder : e.postorder = [e]) (hoperands : e.operands = [])
      (htype : types.get? e.id = some type) (f : Fault) :
      ¬ Obstructed symbols types e.postorder [] f := by
    rw [hpostorder, obstructed_singleton_iff]
    exact Expr.not_obstacle_of_leaf hoperands htype
  induction e with
  | name mark x =>
      rw [lowerExpr]
      exact .typed (huntyped (.name mark x)) fun type htype => .ret _ (hleaf _ rfl rfl htype)
  | int mark value =>
      rw [lowerExpr]
      exact .typed (huntyped (.int mark value)) fun type htype =>
        .define _ _ _ (hleaf _ rfl rfl htype)
  | float mark value =>
      rw [lowerExpr]
      exact .typed (huntyped (.float mark value)) fun type htype =>
        .define _ _ _ (hleaf _ rfl rfl htype)
  | string mark text =>
      rw [lowerExpr]
      exact .typed (huntyped (.string mark text)) fun type htype =>
        .define _ _ _ (hleaf _ rfl rfl htype)
  | negate mark operand ih =>
      rw [lowerExpr]
      refine .typed (huntyped (.negate mark operand)) fun type htype => ?_
      have hself (f : Fault) : (Expr.negate mark operand).Obstacle types f ↔
          type = .string ∧ f = Cause.negatedString.fault mark.location :=
        Expr.obstacle_negate_iff htype
      rw [Expr.postorder]
      by_cases hstring : type = .string
      · rw [if_pos hstring]
        refine .raise (.expression (List.mem_append_right _ (List.mem_singleton_self _)) ?_)
        exact (hself _).mpr ⟨hstring, rfl⟩
      · rw [if_neg hstring]
        refine (ih.bind fun r => .define r.1 type _ fun f => not_false).congr fun f => ?_
        rw [obstructed_behind_iff, obstructed_singleton_iff, hself]
        simp [hstring]
  | binary mark op left right ihleft ihright =>
      rw [lowerExpr]
      refine .typed (huntyped (.binary mark op left right)) fun type htype => ?_
      have hself (f : Fault) : (Expr.binary mark op left right).Obstacle types f ↔
          type = .string ∧ op ≠ .add ∧ f = (Cause.stringOperator op).fault mark.location :=
        Expr.obstacle_binary_iff htype
      have hoperation (l r : List Instr × Place) : StopsFor symbols types
          (fun f => (type = .string ∧ op ≠ .add ∧
            f = (Cause.stringOperator op).fault mark.location) ∨ False)
          (operation mark type op l.2 r.2 >>= fun value => C.define (l.1 ++ r.1) type value) :=
        (stopsFor_operation mark type op l.2 r.2).bind fun value =>
          .define (l.1 ++ r.1) type value fun f => not_false
      refine (ihleft.bind fun l => ihright.bind fun r => hoperation l r).congr fun f => ?_
      rw [Expr.postorder, obstructed_behind_iff, obstructed_behind_iff, obstructed_singleton_iff,
        hself]
      simp [or_assoc]

/-! ## Statements -/

theorem stopsFor_lowerRead (location : Location) (name : String) :
    StopsFor symbols types (Obstructed symbols types [] [(location, name)])
      (lowerRead location name) := by
  unfold lowerRead
  refine .read fun g hsymbols _ => ?_
  rw [hsymbols]
  have hread {type : Ty} (hfound : symbols.get? name = some type) (f : Fault) :
      ¬ Obstructed symbols types [] [(location, name)] f := by
    rintro (⟨he, -⟩ | ⟨hmem, hnone⟩)
    · cases he
    · cases List.mem_singleton.mp hmem
      cases hnone.symm.trans hfound
  cases hfound : symbols.get? name with
  | none => exact .raise (.read (List.mem_singleton_self _) hfound)
  | some type => cases type <;> exact .ret _ (hread hfound)

mutual

/-- The lowering of a statement stops at an obstacle in it. -/
theorem stopsFor_lowerStmt : ∀ s : Stmt,
    StopsFor symbols types (Obstructed symbols types s.postorder s.reads) (lowerStmt s)
  | .read location name => by
      rw [lowerStmt]
      exact stopsFor_lowerRead location name
  | .print _ value => by
      -- The type of the value is looked up once more, and found if there is a value.
      have htwice (f : Fault) : Obstructed symbols types value.postorder [] f ↔
          Obstructed symbols types value.postorder [] f ∨
            types.get? value.id = none ∧
              f = (Cause.untypedExpression value.id).fault value.location := by
        constructor
        · exact .inl
        · rintro (h | ⟨hnone, rfl⟩)
          · exact h
          · exact .expression value.mem_postorder_self (.untyped hnone)
      rw [lowerStmt]
      refine ((stopsFor_lowerExpr value).bind fun r => ?_).congr htwice
      refine .typed (fun hnone => ⟨hnone, rfl⟩) fun type htype => .ret _ fun f h => ?_
      cases h.1.symm.trans htype
  | .assign _ target value => by
      rw [lowerStmt]
      exact (stopsFor_lowerExpr value).thenRet _
  | .branch _ condition yes no => by
      rw [lowerStmt]
      refine ((stopsFor_lowerExpr condition).bind fun r => (stopsFor_lowerAll yes).bind
        fun yesCode => (stopsFor_lowerAll no).thenRet _).congr fun f => ?_
      rw [Stmt.postorder, Stmt.reads, List.append_assoc, obstructed_behind_iff,
        obstructed_append_iff]
  | .loop _ condition body => by
      rw [lowerStmt]
      refine ((stopsFor_lowerExpr condition).bind fun r =>
        (stopsFor_lowerAll body).thenRet _).congr fun f => ?_
      rw [Stmt.postorder, Stmt.reads, obstructed_behind_iff]

theorem stopsFor_lowerAll : ∀ statements : List Stmt,
    StopsFor symbols types
      (Obstructed symbols types (Stmt.postorderAll statements) (Stmt.readsAll statements))
      (lowerAll statements)
  | [] => .ret [] fun _ => not_obstructed_nil
  | s :: rest => by
      rw [lowerAll]
      refine ((stopsFor_lowerStmt s).bind fun code => (stopsFor_lowerAll rest).thenRet _).congr
        fun f => ?_
      rw [Stmt.postorderAll, Stmt.readsAll, obstructed_append_iff]

end

/-- The lowering of a program stops at an obstacle in it. -/
theorem stopsFor_lowerProgram (p : Program) :
    StopsFor symbols types (Obstructed symbols types p.postorder p.reads) (lowerProgram p) := by
  have hstart : StopsFor symbols types (fun _ => False)
      (modify fun g => { g with temporaries := 0 } : Lower PUnit) :=
    .of_ok (fun _ hsymbols htypes => ⟨_, _, rfl, hsymbols, htypes⟩) fun _ => not_false
  have hread : StopsFor symbols types (fun _ => False) (get : Lower Generator) :=
    .of_ok (fun g hsymbols htypes => ⟨g, g, rfl, hsymbols, htypes⟩) fun _ => not_false
  unfold lowerProgram
  refine (hstart.bind fun _ => (stopsFor_lowerAll p.statements).bind fun body =>
    hread.thenRet _).congr fun f => ?_
  simp [Program.postorder, Program.reads]

/-- A writer with tables of any kind makes a text for a program of a parser just if every
expression and every variable that is read has a type on record, no negation is a string, and no
operation but a sum is one. Otherwise it stops for what is said of one of those, and not for want
of anything else. -/
theorem Writer.generate_stops_at_obstacle {host : Host} {s : Sentence} {p : Program}
    (hp : Parser.parse host s = .ok p) (w : Writer) :
    ((∃ text, (w.generate p).1 = .ok text) ↔
        (∀ e ∈ p.expressions, ∃ type, w.types.get? e.id = some type) ∧
        (∀ location name, (location, name) ∈ p.reads → ∃ type, w.symbols.get? name = some type) ∧
        (∀ mark operand, .negate mark operand ∈ p.expressions →
          w.types.get? mark.id ≠ some .string) ∧
        ∀ mark op left right, .binary mark op left right ∈ p.expressions →
          w.types.get? mark.id = some .string → op = .add) ∧
      ∀ stop, (w.generate p).1 = .error stop →
        ∃ f, stop = .fault f ∧ f.cause.family = .generation ∧
          Obstructed w.symbols w.types p.expressions p.reads f := by
  have hstops := (stopsFor_lowerProgram p).congr
    (fun f => obstructed_perm_iff p.expressions_perm) w.generator rfl rfl
  rw [← forall_not_obstructed_iff]
  rcases writeProgram_cases w (Parser.nodup_ids_of_parse hp) with
    ⟨file, after, hlower, hwrite⟩ | ⟨f, after, hlower, hwrite⟩
  · have hgenerate : (w.generate p).1 = .ok file.text := by rw [generate, hwrite]
    rw [hlower] at hstops
    obtain ⟨-, -, hnone⟩ := hstops
    rw [hgenerate]
    refine ⟨⟨fun _ => hnone, fun _ => ⟨file.text, rfl⟩⟩, fun stop hstop => ?_⟩
    cases hstop
  · have hgenerate : (w.generate p).1 = .error (.fault f) := by rw [generate, hwrite]
    rw [hlower] at hstops
    rw [hgenerate]
    refine ⟨⟨fun ⟨_, htext⟩ => ?_, fun hnone => absurd hstops (hnone f)⟩, fun stop hstop => ?_⟩
    · cases htext
    cases hstop
    exact ⟨f, rfl, hstops.family, hstops⟩

/-- In `read x; print -"a";` the negation is on record as a float, and then as a string. -/
theorem Writer.generate_stops_at_obstacle_negation :
    let p : Program := ⟨[], [.read default "x",
      .print default (.negate ⟨1, default⟩ (.string ⟨0, default⟩ "a"))]⟩
    let w (type : Ty) := Writer.ofTables (.ofList [("x", .int)]) (.ofList [(0, .int), (1, type)])
    (∃ text, ((w .float).generate p).1 = .ok text) ∧
      ¬ ∃ text, ((w .string).generate p).1 = .ok text := by
  intro p w
  let words : List Lexeme := [.symbol .readWord, .name "x", .symbol .semicolon,
    .symbol .printWord, .symbol .minus, .string "a", .symbol .semicolon]
  have hp : Parser.parse .unlimited ⟨words.map (⟨·, default⟩), default, by decide⟩ = .ok p :=
    (Parser.parse_unlimited _).trans rfl
  have hexpressions : p.expressions =
      [.negate ⟨1, default⟩ (.string ⟨0, default⟩ "a"), .string ⟨0, default⟩ "a"] :=
    p.expressions_eq_preorderAll
  constructor
  · refine (generate_stops_at_obstacle hp (w .float)).1.mpr ⟨?_, ?_, ?_, ?_⟩
    · rw [hexpressions]
      exact List.forall_mem_cons.mpr ⟨⟨.float, rfl⟩, List.forall_mem_singleton.mpr ⟨.int, rfl⟩⟩
    · intro l name hread
      obtain ⟨rfl, rfl⟩ := Prod.mk.inj (List.mem_singleton.mp hread)
      exact ⟨.int, rfl⟩
    · intro mark operand he
      rw [hexpressions] at he
      rcases List.mem_cons.mp he with heq | hlast
      · cases heq
        decide
      · cases List.mem_singleton.mp hlast
    · intro mark op left right he
      rw [hexpressions] at he
      rcases List.mem_cons.mp he with heq | hlast
      · cases heq
      · cases List.mem_singleton.mp hlast
  · intro h
    obtain ⟨-, -, hnegations, -⟩ := (generate_stops_at_obstacle hp (w .string)).1.mp h
    refine hnegations ⟨1, default⟩ (.string ⟨0, default⟩ "a") ?_ rfl
    rw [hexpressions]
    exact List.mem_cons_self

end C

end ImpToC
