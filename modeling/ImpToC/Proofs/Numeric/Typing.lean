import ImpToC.Proofs.Effects
import ImpToC.Proofs.Grammar.Spelling
import ImpToC.Proofs.Typing.Rules
import ImpToC.Typing

/-!
# Checking programs without strings

No step of a check makes a string of numbers. So a program that is spelt in the language
without strings, and declares no variable for them, leaves none on record, wherever the check
stops.
-/

namespace ImpToC

/-- No value comes into a table but the one that is put there. -/
theorem Table.mem_values_insert {α β : Type} [DecidableEq α] {t : Table α β} {k : α} {v w : β}
    (h : w ∈ (t.insert k v).values) : w = v ∨ w ∈ t.values := by
  have hentries (entries : List (α × β)) (hw : w ∈ (replaceOrAppend k v entries).map Prod.snd) :
      w = v ∨ w ∈ entries.map Prod.snd := by
    induction entries with
    | nil => exact .inl (List.mem_singleton.mp hw)
    | cons entry rest ih =>
        rw [replaceOrAppend] at hw
        split at hw
        · rcases List.mem_cons.mp hw with rfl | hrest
          · exact .inl rfl
          · exact .inr (.tail _ hrest)
        · rcases List.mem_cons.mp hw with rfl | hrest
          · exact .inr (.head _)
          · exact (ih hrest).imp_right (.tail _)
  exact hentries t.entries h

/-! ## The rules -/

/-- In the language without strings, no word is a string or the name of their type. -/
theorem Lexeme.Word.kind_ne_string {w : Lexeme} (h : w.Word false) :
    w.kind ≠ .string ∧ w.kind ≠ .symbol .stringWord := by
  cases h with
  | @mark s hs =>
      refine ⟨nofun, fun hkind => ?_⟩
      obtain rfl : s = .stringWord := Kind.symbol.inj hkind
      exact absurd hs (by decide)
  | @keyword s hs =>
      refine ⟨nofun, fun hkind => ?_⟩
      obtain rfl : s = .stringWord := Kind.symbol.inj hkind
      exact absurd hs (by decide)
  | int | float | name => exact ⟨nofun, nofun⟩
  | string hstrings => cases hstrings

/-- An operation on numbers has a type, and that is one of numbers again. -/
theorem BinOp.exists_result? (op : BinOp) {left right : Ty} (hleft : left ≠ .string)
    (hright : right ≠ .string) : ∃ type, op.result? left right = some type ∧ type ≠ .string := by
  cases left <;> cases right <;>
    first
    | exact absurd rfl hleft
    | exact absurd rfl hright
    | exact ⟨_, rfl, by decide⟩

/-- The rules give no expression without strings the type of strings. -/
theorem Expr.HasType.ne_string {declared : List Declaration}
    (hdeclared : ∀ d ∈ declared, d.type ≠ .string) {e : Expr} {type : Ty}
    (h : e.HasType declared type) (hspelt : e.Spelt false) : type ≠ .string := by
  induction h with
  | name _ hname =>
      obtain ⟨d, hd, -, rfl⟩ := hname
      exact hdeclared d hd
  | int | float => decide
  | string => exact absurd rfl (Lexeme.Word.kind_ne_string hspelt).1
  | negate _ _ ih => exact ih hspelt
  | binary _ _ _ hop ihleft ihright =>
      obtain ⟨found, hfound, hne⟩ :=
        BinOp.exists_result? _ (ihleft hspelt.1) (ihright hspelt.2)
      rw [BinOp.result?_eq_some_iff.mpr hop] at hfound
      exact Option.some.inj hfound ▸ hne

namespace Typing

/-! ## Records without strings -/

/-- No variable and no expression on record is a string. -/
structure Numeric (t : Typing) : Prop where
  scope : ∀ d ∈ t.scope.values, d.type ≠ .string
  types : .string ∉ t.types.values

variable {t : Typing} {α β : Type}

theorem numeric_empty : empty.Numeric := ⟨nofun, nofun⟩

theorem Numeric.symbols (h : t.Numeric) : .string ∉ t.symbols.values := by
  intro hmem
  obtain ⟨entry, hentry, htype⟩ := List.mem_map.mp hmem
  obtain ⟨declared, hdeclared, rfl⟩ := List.mem_map.mp hentry
  exact h.scope declared.2 (List.mem_map_of_mem hdeclared) htype

theorem Numeric.type_ne_string (h : t.Numeric) {name : String} {d : Declaration}
    (hd : t.scope.get? name = some d) : d.type ≠ .string :=
  h.scope d (List.mem_map_of_mem (Table.get?_eq_some_iff.mp hd))

/-- A part of the check keeps strings out of the record, whether it goes on with a result of
some kind or finds a fault; and never does it find operands of types that do not fit. -/
def Keeps (result : α → Prop) (x : Check α) : Prop :=
  ∀ t, t.Numeric →
    match x t with
    | .ok a t' => result a ∧ t'.Numeric
    | .error f t' => (∀ op left right, f.cause ≠ .illTypedOperation op left right) ∧ t'.Numeric

namespace Keeps

variable {result : α → Prop} {result' : β → Prop}

theorem ret {a : α} (h : result a) : Keeps result (pure a) := fun _ ht => ⟨h, ht⟩

theorem raise {f : Fault} (h : ∀ op left right, f.cause ≠ .illTypedOperation op left right) :
    Keeps result (throw f) := fun _ ht => ⟨h, ht⟩

theorem read : Keeps Numeric get := fun _ ht => ⟨ht, ht⟩

theorem write {t : Typing} (h : t.Numeric) : Keeps (fun _ => True) (set t) :=
  fun _ _ => ⟨trivial, h⟩

theorem bind {x : Check α} {next : α → Check β} (h : Keeps result x)
    (hnext : ∀ a, result a → Keeps result' (next a)) : Keeps result' (x >>= next) := by
  intro t ht
  have hx := h t ht
  cases hrun : x t with
  | ok a m =>
      rw [hrun] at hx
      rw [bind_of_ok hrun]
      exact hnext a hx.1 m hx.2
  | error f m =>
      rw [hrun] at hx
      rw [bind_of_error hrun]
      exact hx

theorem forM {γ : Type} {run : γ → Check PUnit} {items : List γ}
    (h : ∀ item ∈ items, Keeps (fun _ => True) (run item)) :
    Keeps (fun _ => True) (items.forM run) := by
  induction items with
  | nil => exact ret trivial
  | cons item rest ih =>
      obtain ⟨hitem, hrest⟩ := List.forall_mem_cons.mp h
      exact hitem.bind fun _ _ => ih hrest

end Keeps

/-! ## Steps of the check -/

theorem lookup_keeps (name : String) (l : Location) : Keeps (· ≠ .string) (lookup name l) := by
  refine Keeps.read.bind fun t ht => ?_
  cases hd : t.scope.get? name with
  | some d => exact .ret (ht.type_ne_string hd)
  | none => exact .raise nofun

theorem record_keeps (id : Nat) {type : Ty} (h : type ≠ .string) :
    Keeps (· ≠ .string) (record id type) := by
  intro t ht
  refine ⟨h, ht.scope, fun hmem => ?_⟩
  rcases Table.mem_values_insert hmem with heq | hbefore
  · exact h heq.symm
  · exact ht.types hbefore

theorem require_keeps (accepted : Bool) (expected actual : Ty) (l : Location) :
    Keeps (fun _ => True) (require accepted expected actual l) := by
  cases accepted with
  | true => exact .ret trivial
  | false => exact .raise nofun

theorem declare_keeps {d : Declaration} (h : d.type ≠ .string) :
    Keeps (fun _ => True) (declare d) := by
  refine Keeps.read.bind fun t ht => ?_
  cases t.scope.get? d.name with
  | some first => exact .raise nofun
  | none =>
      refine .write ⟨fun d' hd' => ?_, ht.types⟩
      rcases Table.mem_values_insert hd' with rfl | hbefore
      · exact h
      · exact ht.scope d' hbefore

end Typing

open Typing

/-! ## Expressions, statements and programs -/

theorem Expr.check_keeps (e : Expr) (h : e.Spelt false) : Keeps (· ≠ .string) e.check := by
  induction e with
  | name m x => exact (lookup_keeps x m.location).bind fun _ htype => record_keeps m.id htype
  | int m | float m => exact record_keeps m.id (by decide)
  | string => exact absurd rfl (Lexeme.Word.kind_ne_string h).1
  | negate m operand ih => exact (ih h).bind fun _ htype => record_keeps m.id htype
  | binary m op left right ihleft ihright =>
      refine (ihleft h.1).bind fun leftType hleft => (ihright h.2).bind fun rightType hright => ?_
      obtain ⟨type, hresult, htype⟩ := op.exists_result? hleft hright
      rw [hresult]
      exact record_keeps m.id htype

theorem Expr.checkCondition_keeps (condition : Expr) (h : condition.Spelt false) (l : Location) :
    Keeps (fun _ => True) (condition.checkCondition l) :=
  (condition.check_keeps h).bind fun _ _ => require_keeps _ _ _ l

mutual

theorem Stmt.check_keeps : ∀ s : Stmt, s.Spelt false → Keeps (fun _ => True) s.check
  | .read l name, _ => (lookup_keeps name l).bind fun _ _ => .ret trivial
  | .print _ value, h => (value.check_keeps h).bind fun _ _ => .ret trivial
  | .assign l target value, h =>
      (value.check_keeps h.2).bind fun _ _ => (lookup_keeps target l).bind fun _ _ =>
        require_keeps _ _ _ l
  | .branch l condition yes no, h =>
      (condition.checkCondition_keeps h.1 l).bind fun _ _ =>
        (Stmt.checkAll_keeps yes h.2.1).bind fun _ _ => Stmt.checkAll_keeps no h.2.2
  | .loop l condition body, h =>
      (condition.checkCondition_keeps h.1 l).bind fun _ _ => Stmt.checkAll_keeps body h.2

theorem Stmt.checkAll_keeps : ∀ statements : List Stmt, Stmt.SpeltAll false statements →
    Keeps (fun _ => True) (Stmt.checkAll statements)
  | [], _ => .ret trivial
  | s :: rest, h => (Stmt.check_keeps s h.1).bind fun _ _ => Stmt.checkAll_keeps rest h.2

end

/-- Whatever becomes of the check of a program without strings, there are none on record. -/
theorem Program.check_keeps {p : Program} (hspelt : p.Spelt false)
    (htypes : ∀ d ∈ p.declarations, d.type ≠ .string) : Keeps (fun _ => True) p.check :=
  (Keeps.forM fun d hd => declare_keeps (htypes d hd)).bind fun _ _ =>
    Stmt.checkAll_keeps p.statements hspelt.2

theorem Typing.numeric_of_extend {t t' : Typing} {p : Program} {fault : Option Fault}
    (ht : t.Numeric) (hspelt : p.Spelt false) (htypes : ∀ d ∈ p.declarations, d.type ≠ .string)
    (h : t.extend p = (fault, t')) :
    t'.Numeric ∧ ∀ f ∈ fault, ∀ op left right, f.cause ≠ .illTypedOperation op left right := by
  have hkeeps := p.check_keeps hspelt htypes t ht
  unfold extend at h
  split at h
  next hcheck =>
    rw [hcheck] at hkeeps
    cases h
    exact ⟨hkeeps.2, fun _ hf => nomatch hf⟩
  next hcheck =>
    rw [hcheck] at hkeeps
    cases h
    refine ⟨hkeeps.2, fun f hf => ?_⟩
    cases hf
    exact hkeeps.1

end ImpToC
