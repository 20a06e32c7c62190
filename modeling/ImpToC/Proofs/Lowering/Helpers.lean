import ImpToC.Proofs.Lowering.Temporaries

/-!
# Calls of the functions for strings

Whether a file has the functions for strings is decided by the tables of types and not by
its code. Code that calls one of them is only made where a table has a string.
-/

namespace ImpToC.C

/-- An initializer with a call of a function for strings. -/
def Value.calls : Value → Bool
  | .concat .. => true
  | .int _ | .float _ | .string _ | .negate _ | .operation .. => false

mutual

/-- A statement with a call of a function for strings in it. -/
def Instr.calls : Instr → Bool
  | .define _ _ value => value.calls
  | .scanString _ => true
  | .branch _ yes no => Instr.callsAny yes || Instr.callsAny no
  | .loop body => Instr.callsAny body
  | .assign .. | .print .. | .scan .. | .leaveUnless _ => false

/-- One of some statements calls a function for strings. -/
def Instr.callsAny : List Instr → Bool
  | [] => false
  | i :: rest => i.calls || Instr.callsAny rest

end

@[simp] theorem Instr.callsAny_append (first second : List Instr) :
    Instr.callsAny (first ++ second) = (Instr.callsAny first || Instr.callsAny second) := by
  induction first with
  | nil => rfl
  | cons i rest ih => simp [Instr.callsAny, ih, Bool.or_assoc]

/-- A table of a generator has a string. -/
def Generator.hasStrings (g : Generator) : Bool :=
  g.symbols.values.contains .string || g.types.values.contains .string

theorem Grows.hasStrings {g g' : Generator} (h : Grows g g') : g'.hasStrings = g.hasStrings := by
  rw [Generator.hasStrings, Generator.hasStrings, h.symbols, h.types]

theorem mem_values_of_get? {α β : Type} [DecidableEq α] {t : Table α β} {k : α} {v : β}
    (h : t.get? k = some v) : v ∈ t.values := by
  obtain ⟨before, after, hentries, -⟩ := List.lookup_eq_some_iff.mp h
  simp [Table.values, hentries]

theorem Generator.hasStrings_of_symbol {g : Generator} {name : String}
    (h : g.symbols.get? name = some .string) : g.hasStrings = true := by
  simp [Generator.hasStrings, mem_values_of_get? h]

theorem Generator.hasStrings_of_type {g : Generator} {id : Nat}
    (h : g.types.get? id = some .string) : g.hasStrings = true := by
  simp [Generator.hasStrings, mem_values_of_get? h]

/-- Code that is made with this generator calls functions for strings only if a table has a
string. -/
def Generator.Provides (g : Generator) (code : List Instr) : Prop :=
  Instr.callsAny code = true → g.hasStrings = true

namespace Generator.Provides

variable {g g' : Generator} {code code' : List Instr}

theorem nil (g : Generator) : g.Provides [] := nofun

theorem append (h : g.Provides code) (h' : g.Provides code') : g.Provides (code ++ code') := by
  intro hcalls
  rw [Instr.callsAny_append, Bool.or_eq_true] at hcalls
  exact hcalls.elim h h'

theorem before (h : g'.Provides code) (hgrows : Grows g g') : g.Provides code :=
  fun hcalls => hgrows.hasStrings ▸ h hcalls

theorem single {i : Instr} (h : i.calls = true → g.hasStrings = true) : g.Provides [i] := by
  intro hcalls
  rw [Instr.callsAny, Instr.callsAny, Bool.or_false] at hcalls
  exact h hcalls

/-- A statement without a call needs nothing. -/
theorem quiet {i : Instr} (h : i.calls = false) : g.Provides [i] :=
  .single fun hcalls => Bool.noConfusion (h.symm.trans hcalls)

end Generator.Provides

variable {g g' : Generator}

/-- Two strings are only joined where the type on record is a string. -/
theorem lowerExpr_provides {e : Expr} {code : List Instr} {place : Place}
    (h : lowerExpr e g = .ok (code, place) g') : g.Provides code := by
  induction e generalizing g g' code place with
  | name mark x =>
      simp only [lowerExpr, bind_eq_ok_iff, typeOf_eq_ok_iff, pure_eq_ok_iff] at h
      obtain ⟨_, _, ⟨-, rfl⟩, heq, rfl⟩ := h
      cases heq
      exact .nil _
  | int mark value | float mark value | string mark value =>
      simp only [lowerExpr, bind_eq_ok_iff, typeOf_eq_ok_iff, define_eq_ok_iff] at h
      obtain ⟨type, _, ⟨-, rfl⟩, rfl, rfl, rfl⟩ := h
      exact .quiet rfl
  | negate mark operand ih =>
      rw [lowerExpr, bind_eq_ok_iff] at h
      obtain ⟨type, _, htypeOf, h⟩ := h
      obtain ⟨-, rfl⟩ := typeOf_eq_ok_iff.mp htypeOf
      split at h
      next => cases h
      next =>
        rw [bind_eq_ok_iff] at h
        obtain ⟨⟨inner, operandPlace⟩, m, hoperand, h⟩ := h
        obtain ⟨rfl, rfl, rfl⟩ := define_eq_ok_iff.mp h
        exact (ih hoperand).append (.quiet rfl)
  | binary mark op left right ihleft ihright =>
      simp only [lowerExpr, bind_eq_ok_iff] at h
      obtain ⟨type, _, htypeOf, ⟨leftCode, leftPlace⟩, m, hleft, ⟨rightCode, rightPlace⟩, m',
        hright, initializer, _, hinitializer, hdefine⟩ := h
      obtain ⟨htype, rfl⟩ := typeOf_eq_ok_iff.mp htypeOf
      obtain ⟨rfl, hvalue⟩ := operation_eq_ok_iff.mp hinitializer
      obtain ⟨rfl, rfl, rfl⟩ := define_eq_ok_iff.mp hdefine
      have hoperands :=
        (ihleft hleft).append ((ihright hright).before (lowerExpr_allots hleft).grows)
      refine hoperands.append (.single fun hcalls => ?_)
      rcases hvalue with ⟨-, rfl⟩ | ⟨rfl, -, -⟩
      · cases hcalls
      · exact Generator.hasStrings_of_type htype

theorem lowerRead_provides {location : Location} {name : String} {code : List Instr}
    (h : lowerRead location name g = .ok code g') : g.Provides code := by
  obtain ⟨rfl, type, hget, rfl⟩ := lowerRead_eq_ok_iff.mp h
  refine .single fun hcalls => ?_
  by_cases hstring : type = .string
  · subst hstring
    exact Generator.hasStrings_of_symbol hget
  · rw [if_neg hstring] at hcalls
    cases hcalls

mutual

theorem lowerStmt_provides : ∀ (s : Stmt) {g g' : Generator} {code : List Instr},
    lowerStmt s g = .ok code g' → g.Provides code
  | .read location name, g, g', code, h => lowerRead_provides h
  | .print location value, g, g', code, h => by
      simp only [lowerStmt, bind_eq_ok_iff, typeOf_eq_ok_iff, pure_eq_ok_iff] at h
      obtain ⟨⟨valueCode, place⟩, _, hvalue, type, _, ⟨-, rfl⟩, rfl, rfl⟩ := h
      exact (lowerExpr_provides hvalue).append (.quiet rfl)
  | .assign location target value, g, g', code, h => by
      simp only [lowerStmt, bind_eq_ok_iff, pure_eq_ok_iff] at h
      obtain ⟨⟨valueCode, place⟩, _, hvalue, rfl, rfl⟩ := h
      exact (lowerExpr_provides hvalue).append (.quiet rfl)
  | .branch location condition yes no, g, g', code, h => by
      simp only [lowerStmt, bind_eq_ok_iff, pure_eq_ok_iff] at h
      obtain ⟨⟨conditionCode, place⟩, m, hcondition, yesCode, m', hyes, noCode, _, hno, rfl, rfl⟩ :=
        h
      have hgrows := (lowerExpr_allots hcondition).grows
      have hgrowsYes := hgrows.trans (lowerAll_allots yes hyes).grows
      have hblocks := ((lowerAll_provides yes hyes).before hgrows).append
        ((lowerAll_provides no hno).before hgrowsYes)
      refine (lowerExpr_provides hcondition).append (.single fun hcalls => hblocks ?_)
      rwa [Instr.callsAny_append]
  | .loop location condition body, g, g', code, h => by
      simp only [lowerStmt, bind_eq_ok_iff, pure_eq_ok_iff] at h
      obtain ⟨⟨conditionCode, place⟩, m, hcondition, bodyCode, _, hbody, rfl, rfl⟩ := h
      have hgrows := (lowerExpr_allots hcondition).grows
      have hblock := (lowerExpr_provides hcondition).append
        ((lowerAll_provides body hbody).before hgrows)
      refine .single fun hcalls => hblock ?_
      simpa [Instr.calls, Instr.callsAny] using hcalls

/-- Whatever code is made for statements has what it calls. -/
theorem lowerAll_provides : ∀ (statements : List Stmt) {g g' : Generator} {code : List Instr},
    lowerAll statements g = .ok code g' → g.Provides code
  | [], g, g', code, h => by
      rw [lowerAll, pure_eq_ok_iff] at h
      obtain ⟨rfl, rfl⟩ := h
      exact .nil _
  | s :: rest, g, g', code, h => by
      simp only [lowerAll, bind_eq_ok_iff, pure_eq_ok_iff] at h
      obtain ⟨sCode, m, hs, restCode, _, hrest, rfl, rfl⟩ := h
      have hgrows := (lowerStmt_allots s hs).grows
      exact (lowerStmt_provides s hs).append ((lowerAll_provides rest hrest).before hgrows)

end

end ImpToC.C
