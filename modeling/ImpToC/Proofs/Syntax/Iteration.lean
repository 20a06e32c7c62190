import Mathlib.Data.List.Nodup
import Mathlib.Logic.Function.Iterate
import ImpToC.Proofs.Syntax.Preorder
import ImpToC.Syntax.Iterator

/-!
# Iteration over a program

Whatever is on its stack, an iterator gives out what a recursion over that gives, in as many rounds
as there are statements and expressions in it. A way through a program leads to a place where an
expression stands; each of these places has its turn once.
-/

namespace ImpToC

/-! ## Ways -/

/-- A turn on the way from a program to one of its expressions. -/
inductive Turn
  | statement (index : Nat)
  | value
  | condition
  | yes (index : Nat)
  | no (index : Nat)
  | body (index : Nat)
  | operand
  | left
  | right
  deriving DecidableEq

/-- The expression that a way leads to from another one. -/
inductive Expr.Leads : Expr → List Turn → Expr → Prop
  | here (e : Expr) : Leads e [] e
  | operand (mark : Mark) {operand e : Expr} {way : List Turn} :
      Leads operand way e → Leads (.negate mark operand) (.operand :: way) e
  | left (mark : Mark) (op : BinOp) {left e : Expr} (right : Expr) {way : List Turn} :
      Leads left way e → Leads (.binary mark op left right) (.left :: way) e
  | right (mark : Mark) (op : BinOp) (left : Expr) {right e : Expr} {way : List Turn} :
      Leads right way e → Leads (.binary mark op left right) (.right :: way) e

/-- The expression that a way leads to from a statement. -/
inductive Stmt.Leads : Stmt → List Turn → Expr → Prop
  | print (l : Location) {value e : Expr} {way : List Turn} :
      value.Leads way e → Leads (.print l value) (.value :: way) e
  | assign (l : Location) (target : String) {value e : Expr} {way : List Turn} :
      value.Leads way e → Leads (.assign l target value) (.value :: way) e
  | branch (l : Location) {condition e : Expr} (yes no : List Stmt) {way : List Turn} :
      condition.Leads way e → Leads (.branch l condition yes no) (.condition :: way) e
  | yes (l : Location) (condition : Expr) {yes : List Stmt} (no : List Stmt) {i : Nat} {s : Stmt}
      {way : List Turn} {e : Expr} :
      yes[i]? = some s → Leads s way e → Leads (.branch l condition yes no) (.yes i :: way) e
  | no (l : Location) (condition : Expr) (yes : List Stmt) {no : List Stmt} {i : Nat} {s : Stmt}
      {way : List Turn} {e : Expr} :
      no[i]? = some s → Leads s way e → Leads (.branch l condition yes no) (.no i :: way) e
  | loop (l : Location) {condition e : Expr} (body : List Stmt) {way : List Turn} :
      condition.Leads way e → Leads (.loop l condition body) (.condition :: way) e
  | body (l : Location) (condition : Expr) {body : List Stmt} {i : Nat} {s : Stmt}
      {way : List Turn} {e : Expr} :
      body[i]? = some s → Leads s way e → Leads (.loop l condition body) (.body i :: way) e

/-- The expression that a way leads to from a program. -/
inductive Program.Leads (p : Program) : List Turn → Expr → Prop
  | statement {i : Nat} {s : Stmt} {way : List Turn} {e : Expr} :
      p.statements[i]? = some s → s.Leads way e → Leads p (.statement i :: way) e

/-- Some expressions are those that ways lead to, with one way to each of them. -/
def Enumerates (leads : List Turn → Expr → Prop) (es : List Expr) : Prop :=
  ∃ places : List (List Turn × Expr), places.map Prod.snd = es ∧ (places.map Prod.fst).Nodup ∧
    ∀ way e, (way, e) ∈ places ↔ leads way e

/-! ## Places in their order -/

/-- The ways with a turn in front. -/
def Behind (turn : Turn) (leads : List Turn → Expr → Prop) (way : List Turn) (e : Expr) : Prop :=
  ∃ rest, way = turn :: rest ∧ leads rest e

/-- The ways through some statements, with a turn for each of them. -/
def Stmt.LeadsAll (turn : Nat → Turn) (statements : List Stmt) (way : List Turn) (e : Expr) : Prop :=
  ∃ i s rest, statements[i]? = some s ∧ way = turn i :: rest ∧ s.Leads rest e

namespace Enumerates

variable {leads leads' : List Turn → Expr → Prop} {es es' : List Expr}

theorem congr (h : Enumerates leads es) (hleads : ∀ way e, leads' way e ↔ leads way e) :
    Enumerates leads' es := by
  rwa [funext₂ fun way e => propext (hleads way e)]

theorem none : Enumerates (fun _ _ => False) [] :=
  ⟨[], rfl, List.nodup_nil, fun _ _ => List.mem_nil_iff _⟩

theorem here (e : Expr) : Enumerates (fun way e' => way = [] ∧ e' = e) [e] :=
  ⟨[([], e)], rfl, List.nodup_singleton _, fun way e' => by simp⟩

theorem behind (turn : Turn) (h : Enumerates leads es) : Enumerates (Behind turn leads) es := by
  obtain ⟨places, rfl, hnodup, hplaces⟩ := h
  refine ⟨places.map fun place => (turn :: place.1, place.2), ?_, ?_, fun way e => ?_⟩
  · rw [List.map_map]
    rfl
  · have hways := hnodup.map (List.cons_injective (a := turn))
    rwa [List.map_map] at hways ⊢
  · rw [List.mem_map]
    constructor
    · rintro ⟨⟨rest, e⟩, hmem, heq⟩
      cases heq
      exact ⟨rest, rfl, (hplaces rest e).mp hmem⟩
    · rintro ⟨rest, rfl, hleads⟩
      exact ⟨(rest, e), (hplaces rest e).mpr hleads, rfl⟩

/-- No way is of both kinds. -/
theorem append (h : Enumerates leads es) (h' : Enumerates leads' es')
    (hapart : ∀ way e e', leads way e → ¬ leads' way e') :
    Enumerates (fun way e => leads way e ∨ leads' way e) (es ++ es') := by
  obtain ⟨places, rfl, hnodup, hplaces⟩ := h
  obtain ⟨places', rfl, hnodup', hplaces'⟩ := h'
  refine ⟨places ++ places', List.map_append, ?_, fun way e => ?_⟩
  · rw [List.map_append]
    refine hnodup.append hnodup' fun way hway hway' => ?_
    obtain ⟨⟨_, e⟩, hmem, rfl⟩ := List.mem_map.mp hway
    obtain ⟨⟨_, e'⟩, hmem', rfl⟩ := List.mem_map.mp hway'
    exact hapart _ e e' ((hplaces _ e).mp hmem) ((hplaces' _ e').mp hmem')
  · rw [List.mem_append, hplaces, hplaces']

/-- An expression stands in front of those that turns lead to. -/
theorem cons (e : Expr) (h : Enumerates leads es) (hturn : ∀ e', ¬ leads [] e') :
    Enumerates (fun way e' => way = [] ∧ e' = e ∨ leads way e') (e :: es) := by
  refine (Enumerates.here e).append h ?_
  rintro way _ e' ⟨rfl, -⟩
  exact hturn e'

end Enumerates

theorem not_behind_nil {turn : Turn} {leads : List Turn → Expr → Prop} {e : Expr} :
    ¬ Behind turn leads [] e := by
  rintro ⟨_, hway, -⟩
  cases hway

/-- The list of the expressions in an expression has one of them for each way. -/
theorem Expr.enumerates (e : Expr) : Enumerates e.Leads e.preorder := by
  induction e with
  | name | int | float | string =>
      refine (Enumerates.here _).congr fun way e => ⟨fun h => ?_, ?_⟩
      · cases h
        exact ⟨rfl, rfl⟩
      · rintro ⟨rfl, rfl⟩
        exact .here _
  | negate mark operand ih =>
      refine ((ih.behind .operand).cons _ fun _ => not_behind_nil).congr
        fun way e => ⟨fun h => ?_, ?_⟩
      · cases h with
        | here => exact .inl ⟨rfl, rfl⟩
        | operand _ h => exact .inr ⟨_, rfl, h⟩
      · rintro (⟨rfl, rfl⟩ | ⟨_, rfl, h⟩)
        · exact .here _
        · exact .operand mark h
  | binary mark op left right ihleft ihright =>
      have hoperands := (ihleft.behind .left).append (ihright.behind .right) (by
        rintro way e e' ⟨_, rfl, -⟩ ⟨_, hway, -⟩
        cases hway)
      refine (hoperands.cons _ fun _ => not_or.mpr ⟨not_behind_nil, not_behind_nil⟩).congr
        fun way e => ⟨fun h => ?_, ?_⟩
      · cases h with
        | here => exact .inl ⟨rfl, rfl⟩
        | left _ _ _ h => exact .inr (.inl ⟨_, rfl, h⟩)
        | right _ _ _ h => exact .inr (.inr ⟨_, rfl, h⟩)
      · rintro (⟨rfl, rfl⟩ | ⟨_, rfl, h⟩ | ⟨_, rfl, h⟩)
        · exact .here _
        · exact .left mark op right h
        · exact .right mark op left h

namespace Stmt

theorem not_leadsAll_nil {turn : Nat → Turn} {way : List Turn} {e : Expr} :
    ¬ LeadsAll turn [] way e := by
  rintro ⟨i, s, rest, hs, -⟩
  cases hs

theorem leadsAll_cons_iff {turn : Nat → Turn} {s : Stmt} {statements : List Stmt}
    {way : List Turn} {e : Expr} :
    LeadsAll turn (s :: statements) way e ↔
      Behind (turn 0) s.Leads way e ∨ LeadsAll (fun i => turn (i + 1)) statements way e := by
  constructor
  · rintro ⟨i, s', rest, hs, rfl, h⟩
    cases i with
    | zero =>
        cases hs
        exact .inl ⟨rest, rfl, h⟩
    | succ i => exact .inr ⟨i, s', rest, hs, rfl, h⟩
  · rintro (⟨rest, rfl, h⟩ | ⟨i, s', rest, hs, rfl, h⟩)
    · exact ⟨0, s, rest, rfl, rfl, h⟩
    · exact ⟨i + 1, s', rest, hs, rfl, h⟩

mutual

theorem enumerates : ∀ s : Stmt, Enumerates s.Leads s.preorder
  | .read l name => by
      refine Enumerates.none.congr fun way e => iff_of_false ?_ not_false
      rintro ⟨⟩
  | .print l value => by
      refine (value.enumerates.behind .value).congr fun way e => ⟨fun h => ?_, ?_⟩
      · cases h with
        | print _ h => exact ⟨_, rfl, h⟩
      · rintro ⟨_, rfl, h⟩
        exact .print l h
  | .assign l target value => by
      refine (value.enumerates.behind .value).congr fun way e => ⟨fun h => ?_, ?_⟩
      · cases h with
        | assign _ _ h => exact ⟨_, rfl, h⟩
      · rintro ⟨_, rfl, h⟩
        exact .assign l target h
  | .branch l condition yes no => by
      have hyes := enumeratesAll yes Turn.yes fun _ _ => Turn.yes.inj
      have hno := enumeratesAll no Turn.no fun _ _ => Turn.no.inj
      have hblocks := hyes.append hno (by
        rintro way e e' ⟨_, _, _, -, rfl, -⟩ ⟨_, _, _, -, hway, -⟩
        cases hway)
      have hall := (condition.enumerates.behind .condition).append hblocks (by
        rintro way e e' ⟨_, rfl, -⟩ (⟨_, _, _, -, hway, -⟩ | ⟨_, _, _, -, hway, -⟩)
        · cases hway
        · cases hway)
      refine hall.congr fun way e => ⟨fun h => ?_, ?_⟩
      · cases h with
        | branch _ _ _ h => exact .inl ⟨_, rfl, h⟩
        | yes _ _ _ hs h => exact .inr (.inl ⟨_, _, _, hs, rfl, h⟩)
        | no _ _ _ hs h => exact .inr (.inr ⟨_, _, _, hs, rfl, h⟩)
      · rintro (⟨_, rfl, h⟩ | ⟨_, _, _, hs, rfl, h⟩ | ⟨_, _, _, hs, rfl, h⟩)
        · exact .branch l yes no h
        · exact .yes l condition no hs h
        · exact .no l condition yes hs h
  | .loop l condition body => by
      have hbody := enumeratesAll body Turn.body fun _ _ => Turn.body.inj
      have hall := (condition.enumerates.behind .condition).append hbody (by
        rintro way e e' ⟨_, rfl, -⟩ ⟨_, _, _, -, hway, -⟩
        cases hway)
      refine hall.congr fun way e => ⟨fun h => ?_, ?_⟩
      · cases h with
        | loop _ _ h => exact .inl ⟨_, rfl, h⟩
        | body _ _ hs h => exact .inr ⟨_, _, _, hs, rfl, h⟩
      · rintro (⟨_, rfl, h⟩ | ⟨_, _, _, hs, rfl, h⟩)
        · exact .loop l body h
        · exact .body l condition hs h

theorem enumeratesAll : ∀ (statements : List Stmt) (turn : Nat → Turn),
    Function.Injective turn → Enumerates (LeadsAll turn statements) (preorderAll statements)
  | [], turn, _ => Enumerates.none.congr fun _ _ => iff_of_false not_leadsAll_nil not_false
  | s :: rest, turn, hturn => by
      have hrest := enumeratesAll rest (fun i => turn (i + 1)) fun i j h =>
        Nat.succ.inj (hturn h)
      refine (((enumerates s).behind (turn 0)).append hrest ?_).congr
        fun _ _ => leadsAll_cons_iff
      -- The first statement has a turn that none of the others has.
      rintro way e e' ⟨_, rfl, -⟩ ⟨i, _, _, -, hway, -⟩
      exact absurd (hturn (List.cons.inj hway).1) (Nat.succ_ne_zero i).symm

end

end Stmt

theorem Program.enumerates (p : Program) :
    Enumerates p.Leads (Stmt.preorderAll p.statements) := by
  refine (Stmt.enumeratesAll p.statements Turn.statement fun _ _ => Turn.statement.inj).congr
    fun way e => ⟨?_, ?_⟩
  · rintro ⟨hs, h⟩
    exact ⟨_, _, _, hs, rfl, h⟩
  · rintro ⟨_, _, _, hs, rfl, h⟩
    exact .statement hs h

/-! ## Rounds -/

namespace Iterator

/-- Behind any number of rounds there is that much less to visit. -/
theorem size_rounds (it : Iterator) (n : Nat) : (round^[n] it).size = it.size - n := by
  induction n with
  | zero => rfl
  | succ n ih => rw [Function.iterate_succ_apply', size_round, ih, Nat.sub_sub]

/-- An iterator gives out the expressions on its agenda behind those that it has given out. -/
theorem toList_run (it : Iterator) :
    it.run.toList = it.given.toList ++ Visit.expressions it.agenda := by
  induction it using run.induct with
  | case1 it hend =>
      have hagenda : it.agenda = [] := by
        rwa [agenda, List.reverse_eq_nil_iff, Array.toList_eq_nil_iff, ← Array.isEmpty_iff]
      rw [run, if_pos hend, hagenda, Visit.expressions, List.append_nil]
  | case2 it hend ih =>
      rw [run, if_neg hend, ih]
      cases hagenda : it.agenda with
      | nil =>
          refine absurd (size_eq_zero_iff.mp ?_) hend
          rw [size, hagenda, Visit.sizeAll_nil]
      | cons v rest =>
          obtain ⟨hrest, hgiven⟩ := round_of_cons hagenda
          rw [hrest, hgiven, Visit.expressions, Array.toList_appendList, List.append_assoc]

end Iterator

/-- An iterator over a program gives out its expressions in the order of a recursion over it: each
one in front of its operands, the left one before the right one, statements in turn, and a condition
in front of the blocks. It has come to its end when it has made one round for each statement and
each expression, and not before. Every place where an expression stands has been given out once,
whatever the numbers of the expressions are. -/
theorem Program.iterate_preorder (p : Program) :
    p.iterate = Stmt.preorderAll p.statements ∧
      (∀ n, (Iterator.round^[n] (.ofProgram p)).stack.isEmpty ↔
        Stmt.sizeAll p.statements ≤ n) ∧
      Enumerates p.Leads p.iterate := by
  have hpreorder : p.iterate = Stmt.preorderAll p.statements := by
    rw [iterate, Iterator.toList_run, Iterator.agenda_ofProgram, Visit.expressions_eq_flatMap,
      Visit.flatMap_preorder_map_stmt]
    rfl
  refine ⟨hpreorder, fun n => ?_, hpreorder ▸ p.enumerates⟩
  have hsize : (Iterator.ofProgram p).size = Stmt.sizeAll p.statements := by
    rw [Iterator.size, Iterator.agenda_ofProgram, Visit.sizeAll_map_stmt]
  rw [← Iterator.size_eq_zero_iff, Iterator.size_rounds, hsize, Nat.sub_eq_zero_iff_le]

end ImpToC
