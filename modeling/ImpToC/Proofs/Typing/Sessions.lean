import ImpToC.Proofs.Parsing.Numbers
import ImpToC.Proofs.Typing.Checkers
import ImpToC.Proofs.Typing.Partial

/-!
# Sessions of a checker

A checker that goes from one program to the next, whatever became of the ones before, only ever
adds variables to its record, and the types of expressions that are left over make no
difference.
-/

namespace ImpToC

namespace Typing

/-! ## Types left over -/

/-- A record put onto types that are left over from before. -/
def onto (stale : Table Nat Ty) (t : Typing) : Typing := { t with types := stale.overlay t.types }

variable (stale : Table Nat Ty)

theorem onto_scope (t : Typing) : (t.onto stale).scope = t.scope := rfl

/-- Types left over make no difference to a part of the check, and stay where nothing else is
recorded. -/
abbrev Regardless {α : Type} (x : Check α) : Prop := Along (onto stale) (fun f => f) x x

theorem lookup_regardless (name : String) (l : Location) :
    Regardless stale (lookup name l) := by
  refine Along.read fun t => ?_
  rw [onto_scope]
  cases t.scope.get? name <;> rfl

theorem record_regardless (id : Nat) (type : Ty) : Regardless stale (record id type) := by
  intro t
  have hinsert := stale.overlay_insert t.types id type
  show EStateM.Result.ok type (Typing.mk t.scope ((stale.overlay t.types).insert id type)) = _
  rw [hinsert]
  rfl

theorem require_regardless (accepted : Bool) (expected actual : Ty) (l : Location) :
    Regardless stale (require accepted expected actual l) := by
  cases accepted with
  | true => exact .ret ()
  | false => exact .raise rfl

theorem declare_regardless (d : Declaration) : Regardless stale (declare d) := by
  refine Along.read fun t => ?_
  rw [onto_scope]
  cases t.scope.get? d.name <;> rfl

end Typing

open Typing

section Regardless

variable (stale : Table Nat Ty)

theorem Expr.check_regardless (e : Expr) : Regardless stale e.check := by
  induction e with
  | name m x =>
      exact (lookup_regardless stale x m.location).bind fun type =>
        record_regardless stale m.id type
  | int m | float m | string m => exact record_regardless stale m.id _
  | negate m operand ih => exact ih.bind fun type => record_regardless stale m.id type
  | binary m op left right ihleft ihright =>
      refine ihleft.bind fun leftType => ihright.bind fun rightType => ?_
      cases op.result? leftType rightType with
      | some type => exact record_regardless stale m.id type
      | none => exact .raise rfl

theorem Expr.checkCondition_regardless (condition : Expr) (l : Location) :
    Regardless stale (condition.checkCondition l) :=
  (condition.check_regardless stale).bind fun _ => require_regardless stale _ _ _ l

mutual

theorem Stmt.check_regardless : ∀ s : Stmt, Regardless stale s.check
  | .read l name => (lookup_regardless stale name l).bind fun _ => .ret ()
  | .print _ value => (value.check_regardless stale).bind fun _ => .ret ()
  | .assign l target value =>
      (value.check_regardless stale).bind fun _ => (lookup_regardless stale target l).bind fun _ =>
        require_regardless stale _ _ _ l
  | .branch l condition yes no =>
      (condition.checkCondition_regardless stale l).bind fun _ =>
        (Stmt.checkAll_regardless yes).bind fun _ => Stmt.checkAll_regardless no
  | .loop l condition body =>
      (condition.checkCondition_regardless stale l).bind fun _ => Stmt.checkAll_regardless body

theorem Stmt.checkAll_regardless : ∀ statements : List Stmt,
    Regardless stale (Stmt.checkAll statements)
  | [] => .ret ()
  | s :: rest => (Stmt.check_regardless s).bind fun _ => Stmt.checkAll_regardless rest

end

theorem Typing.extend_onto (t : Typing) (p : Program) :
    (t.onto stale).extend p = ((t.extend p).1, (t.extend p).2.onto stale) := by
  have hcheck : Regardless stale p.check :=
    (Along.forM (declare_regardless stale) p.declarations).bind fun _ =>
      Stmt.checkAll_regardless stale p.statements
  unfold extend
  rw [hcheck t]
  cases p.check t <;> rfl

end Regardless

namespace Checker

variable {c c' : Checker} {declared : List Declaration} {p : Program}

/-! ## One program -/

/-- The variables on record are those of some declarations, each with its type and its place. -/
structure Declares (c : Checker) (declared : List Declaration) : Prop where
  symbols : c.symbols.entries = declared.map fun d => (d.name, d.type)
  declaredAt : c.declaredAt.entries = declared.map fun d => (d.name, d.location)

theorem declares_empty : empty.Declares [] := ⟨rfl, rfl⟩

theorem declares_checker {t : Typing} (h : t.Scoped declared) : t.checker.Declares declared := by
  refine ⟨h.symbols_entries, ?_⟩
  show t.scope.entries.map (fun e => (e.1, e.2.location)) = _
  rw [h, List.map_map]
  rfl

theorem Declares.nodup (h : c.Declares declared) : (declared.map Declaration.name).Nodup := by
  have hnodup := c.symbols.nodup
  rw [h.symbols, List.map_map] at hnodup
  exact hnodup

theorem Declares.keys (h : c.Declares declared) : c.declaredAt.keys = c.symbols.keys := by
  rw [Table.keys, Table.keys, h.symbols, h.declaredAt, List.map_map, List.map_map]
  rfl

theorem Declares.exists_typing (h : c.Declares declared) :
    ∃ t : Typing, t.checker = c ∧ t.Scoped declared := by
  have hnodup : ((declared.map fun d => (d.name, d)).map Prod.fst).Nodup := by
    rw [List.map_map]
    exact h.nodup
  let t : Typing := ⟨⟨declared.map fun d => (d.name, d), hnodup⟩, c.types⟩
  have hscoped : t.Scoped declared := rfl
  have hdeclares := declares_checker hscoped
  have hsymbols : t.checker.symbols = c.symbols :=
    Table.ext_entries (hdeclares.symbols.trans h.symbols.symm)
  have hdeclaredAt : t.checker.declaredAt = c.declaredAt :=
    Table.ext_entries (hdeclares.declaredAt.trans h.declaredAt.symm)
  refine ⟨t, ?_, hscoped⟩
  show Checker.mk t.checker.symbols t.checker.declaredAt c.types = c
  rw [hsymbols, hdeclaredAt]

/-- What a program adds to the record of a checker: variables for some of its declarations, from
the first one on, and the types that are written. -/
structure Extends (p : Program) (new : List Declaration) (written : Table Nat Ty)
    (stop : Option Stop) (c c' : Checker) : Prop where
  declarations : new <+: p.declarations
  /-- What is there stays there, and in front of what is new. -/
  symbols : c'.symbols.entries = c.symbols.entries ++ new.map fun d => (d.name, d.type)
  declaredAt : c'.declaredAt.entries = c.declaredAt.entries ++ new.map fun d => (d.name, d.location)
  types : c'.types = c.types.overlay written
  /-- With no types left over, those that are written are all there are. -/
  alone : { c with types := .empty }.check p = (stop, { c' with types := written })
  /-- Whatever types are left over from other programs, what comes of this one is the same. -/
  regardless : ∀ stale, { c with types := stale }.check p =
    (stop, { c' with types := stale.overlay written })

/-- What is found out about a program over some variables: just the types that the rules give,
of its expressions from the first one on, and that it is well typed if nothing stops it. -/
structure Sound (declared : List Declaration) (p : Program) (new : List Declaration)
    (written : Table Nat Ty) (stop : Option Stop) : Prop where
  typed : ∃ es, es <+: p.postorder ∧ written.keys = es.map Expr.id ∧
    ∀ e ∈ es, ∃ type, written.get? e.id = some type ∧ e.HasType (declared ++ new) type
  passes : stop = none ↔ ((declared ++ p.declarations).map Declaration.name).Nodup ∧
    ∀ s ∈ p.statements, s.WellTyped (declared ++ p.declarations)
  /-- Nothing is looked up that is not on record. -/
  found : stop ≠ some .missing

/-- A checker with any types on record extends it with what is found out about a program. -/
theorem exists_extends (h : c.Declares declared) (hids : (p.postorder.map Expr.id).Nodup) :
    ∃ new written, (c.check p).2.Declares (declared ++ new) ∧
      Extends p new written (c.check p).1 c (c.check p).2 ∧
      Sound declared p new written (c.check p).1 := by
  obtain ⟨t, rfl, hscoped⟩ := h.exists_typing
  -- The same variables with no types left over.
  let fresh : Typing := { t with types := .empty }
  obtain ⟨⟨new, es, hleaves⟩, hpasses⟩ :=
    Typing.exists_leaves (t := fresh) hscoped h.nodup rfl hids
  obtain ⟨fault, after, hfresh⟩ : ∃ fault after, fresh.extend p = (fault, after) := ⟨_, _, rfl⟩
  rw [hfresh] at hleaves hpasses
  have honto (stale : Table Nat Ty) : { t.checker with types := stale }.check p =
      (fault.map .fault, { after.checker with types := stale.overlay after.types }) := by
    have hstale : { t.checker with types := stale } = (fresh.onto stale).checker := by
      rw [Typing.onto, Table.overlay_empty]
      rfl
    rw [hstale, check_checker hids, Typing.extend_onto, hfresh]
    rfl
  have halone : { t.checker with types := .empty }.check p = (fault.map .fault, after.checker) := by
    have hchecker := check_checker hids fresh
    rwa [hfresh] at hchecker
  have hcheck : t.checker.check p =
      (fault.map .fault, { after.checker with types := t.types.overlay after.types }) :=
    honto t.types
  have hdeclares : { after.checker with types := t.types.overlay after.types }.Declares
      (declared ++ new) :=
    ⟨(declares_checker hleaves.scope).symbols, (declares_checker hleaves.scope).declaredAt⟩
  rw [hcheck]
  refine ⟨new, after.types, hdeclares, ⟨hleaves.declarations, ?_, ?_, rfl, halone, honto⟩,
    ⟨es, hleaves.expressions, hleaves.keys, hleaves.typed⟩, ?_, ?_⟩
  · rw [hdeclares.symbols, h.symbols, List.map_append]
  · rw [hdeclares.declaredAt, h.declaredAt, List.map_append]
  · rw [← hpasses]
    cases fault <;> simp
  · cases fault <;> simp

/-! ## Sessions -/

/-- The checker behind some programs. -/
def behind (c : Checker) (programs : List Program) : Checker :=
  programs.foldl (fun c p => (c.check p).2) c

theorem session_getElem? (c : Checker) (front : List Program) (p : Program)
    (rest : List Program) :
    (c.session (front ++ p :: rest))[front.length]? = some ((c.behind front).check p) := by
  induction front generalizing c with
  | nil => rfl
  | cons q front ih => exact ih (c.check q).2

/-- The checks of some programs in turn leave what a checker keeps of them. -/
theorem session_checker {programs : List Program}
    (hids : ∀ q ∈ programs, (q.postorder.map Expr.id).Nodup) (t : Typing) :
    t.checker.session programs =
      (t.extendAll programs).map fun r => (r.1.map Stop.fault, r.2.checker) := by
  induction programs generalizing t with
  | nil => rfl
  | cons q rest ih =>
      obtain ⟨hq, hrest⟩ := List.forall_mem_cons.mp hids
      rw [session, check_checker hq, ih hrest]
      rfl

/-- Whatever programs came before, a checker has the variables of some declarations on record. -/
theorem exists_declares_behind {front : List Program}
    (hids : ∀ q ∈ front, (q.postorder.map Expr.id).Nodup) (h : c.Declares declared) :
    ∃ declared', (c.behind front).Declares declared' := by
  induction front generalizing c declared with
  | nil => exact ⟨declared, h⟩
  | cons q front ih =>
      obtain ⟨hq, hfront⟩ := List.forall_mem_cons.mp hids
      obtain ⟨new, written, hnext, -⟩ := exists_extends h hq
      exact ih hfront hnext

/-- In a session with programs that a parser has made, however many of them fail, each one
extends the record that there is behind those in front of it: the variables stay, in their
order and with their types, and new ones come behind them; for each variable, and for no other,
the place of the declaration is known that created it. What comes of a program depends on
the others through the variables alone, and not on the types that are left over under the
numbers of its expressions. The types that it writes, and no others, take their places among
those on record or come behind them. They are right, and a program passes just if it is well
typed. -/
theorem session_extends {programs front rest : List Program} {p : Program}
    (hparsed : ∀ q ∈ programs, ∃ host s, Parser.parse host s = .ok q)
    (hsplit : programs = front ++ p :: rest) :
    ∃ declared new written stop after,
      (empty.session programs)[front.length]? = some (stop, after) ∧
      (empty.behind front).Declares declared ∧ after.Declares (declared ++ new) ∧
      after.declaredAt.keys = after.symbols.keys ∧
      Extends p new written stop (empty.behind front) after ∧
      Sound declared p new written stop := by
  have hids : ∀ q ∈ programs, (q.postorder.map Expr.id).Nodup := by
    intro q hq
    obtain ⟨host, s, hparse⟩ := hparsed q hq
    exact Parser.nodup_ids_of_parse hparse
  subst hsplit
  obtain ⟨hfront, hp, -⟩ := List.forall_mem_append.mp hids |>.imp_right List.forall_mem_cons.mp
  obtain ⟨declared, hdeclared⟩ := exists_declares_behind hfront declares_empty
  obtain ⟨new, written, hafter, hextends, hsound⟩ := exists_extends hdeclared hp
  exact ⟨declared, new, written, _, _, session_getElem? empty front p rest, hdeclared, hafter,
    hafter.keys, hextends, hsound⟩

/-- The check of `var x : int; print 1 + "a";` stops behind both operands. What it leaves
makes no difference to the program `print "b"; x = 3;`, whose expressions have the same
numbers. -/
theorem session_extends_left_over :
    let tokens (words : List Lexeme) : List Token := words.map (⟨·, default⟩)
    let first : Sentence := ⟨tokens [.symbol .varWord, .name "x", .symbol .colon,
      .symbol .intWord, .symbol .semicolon, .symbol .printWord, .int ⟨"1", rfl⟩, .symbol .plus,
      .string "a", .symbol .semicolon], default, by decide⟩
    let second : Sentence := ⟨tokens [.symbol .printWord, .string "b", .symbol .semicolon,
      .name "x", .symbol .equals, .int ⟨"3", rfl⟩, .symbol .semicolon], default, by decide⟩
    ∃ p q stop after written,
      Parser.parse .unlimited first = .ok p ∧ Parser.parse .unlimited second = .ok q ∧
      (empty.session [p, q])[1]? = some (stop, after) ∧ stop = none ∧
      (empty.behind [p]).types.entries = [(0, .int), (1, .string)] ∧
      after.types = (empty.behind [p]).types.overlay written ∧
      after.types.entries = [(0, .string), (1, .int)] := by
  intro tokens first second
  let p : Program := ⟨[⟨default, "x", .int⟩],
    [.print default (.binary ⟨2, default⟩ .add (.int ⟨0, default⟩ 1) (.string ⟨1, default⟩ "a"))]⟩
  let q : Program := ⟨[],
    [.print default (.string ⟨0, default⟩ "b"), .assign default "x" (.int ⟨1, default⟩ 3)]⟩
  have hfirst : Parser.parse .unlimited first = .ok p := (Parser.parse_unlimited first).trans rfl
  have hsecond : Parser.parse .unlimited second = .ok q :=
    (Parser.parse_unlimited second).trans rfl
  have hparsed : ∀ r ∈ [p, q], ∃ host s, Parser.parse host s = .ok r :=
    List.forall_mem_cons.mpr
      ⟨⟨.unlimited, first, hfirst⟩,
        List.forall_mem_singleton.mpr ⟨.unlimited, second, hsecond⟩⟩
  have hsplit : [p, q] = [p] ++ q :: [] := rfl
  obtain ⟨declared, new, written, stop, after, hresult, -, -, -, hextends, -⟩ :=
    session_extends hparsed hsplit
  rw [show [p].length = 1 from rfl] at hresult
  have hleft : (empty.behind [p]).types.entries = [(0, .int), (1, .string)] := by
    decide +kernel
  have hboth : (empty.session [p, q])[1]?.map (fun r => (r.1, r.2.types.entries)) =
      some (none, [(0, .string), (1, .int)]) := by
    decide +kernel
  rw [hresult] at hboth
  obtain ⟨rfl, hentries⟩ := Prod.mk.inj (Option.some.inj hboth)
  exact ⟨p, q, none, after, written, hfirst, hsecond, hresult, rfl, hleft, hextends.types, hentries⟩

end Checker

end ImpToC
