import ImpToC.Proofs.Lowering.Helpers
import ImpToC.Proofs.Scoping.Lines

/-!
# Scopes of generated statements

The words of typed code lead from a context in which all its places are visible to one with
the temporaries that it defines, in the order of their definitions.
-/

namespace ImpToC.C

/-! ## Plain words -/

/-- A word that is plain whatever is visible. -/
def Word.IsFixed : Word → Prop
  | .name x => x ∉ typeNames ∧ ¬ IsGenerated x ∧ x ∉ helperNames
  | .literal => True
  | .mark c => c ≠ '{' ∧ c ≠ '}'

instance : DecidablePred Word.IsFixed
  | .name x => inferInstanceAs (Decidable (x ∉ typeNames ∧ ¬ IsGenerated x ∧ x ∉ helperNames))
  | .literal => isTrue trivial
  | .mark c => inferInstanceAs (Decidable (c ≠ '{' ∧ c ≠ '}'))

variable {visible visible' : List String} {helpers helpers' : Prop}

theorem Word.Plain.fixed {w : Word} (h : w.IsFixed) : w.Plain visible helpers := by
  cases w with
  | name x => exact ⟨h.1, fun hx => absurd hx h.2.1, fun hx => absurd hx h.2.2⟩
  | literal => trivial
  | mark c => exact h

/-- A generated name is plain where it is visible. -/
theorem plain_of_isGenerated {x : String} (hx : IsGenerated x) (hvisible : x ∈ visible) :
    (Word.name x).Plain visible helpers :=
  ⟨hx.not_mem_typeNames, fun _ => hvisible, fun h => absurd h hx.not_mem_helperNames⟩

/-- A helper is plain where it may be named. -/
theorem plain_of_mem_helperNames {x : String} (hx : x ∈ helperNames) (hhelpers : helpers) :
    (Word.name x).Plain visible helpers := by
  have htypes : ∀ x ∈ helperNames, x ∉ typeNames := by decide
  exact ⟨htypes x hx, fun h => absurd hx h.not_mem_helperNames, fun _ => hhelpers⟩

/-! ## Places in scope -/

/-- All variables and the temporaries in scope are visible. -/
structure Covers (symbols : List (String × Ty)) (scope : List (Nat × Ty))
    (visible : List String) : Prop where
  named : ∀ v ∈ symbols, variableName v.1 ∈ visible
  numbered : ∀ t ∈ scope, temporaryName t.1 ∈ visible

variable {symbols : List (String × Ty)} {scope : List (Nat × Ty)}

namespace Covers

theorem mono (h : Covers symbols scope visible) (hsubset : visible ⊆ visible') :
    Covers symbols scope visible' :=
  ⟨fun v hv => hsubset (h.named v hv), fun t ht => hsubset (h.numbered t ht)⟩

theorem define (h : Covers symbols scope visible) (index : Nat) (type : Ty) :
    Covers symbols ((index, type) :: scope) (temporaryName index :: visible) where
  named := (h.mono (List.subset_cons_self _ _)).named
  numbered := List.forall_mem_cons.mpr
    ⟨List.mem_cons_self, (h.mono (List.subset_cons_self _ _)).numbered⟩

end Covers

section Places

variable (hcovers : Covers symbols scope visible)
include hcovers

/-- A typed place is plain. -/
theorem plain_place {place : Place} {type : Ty} (h : place.HasType symbols scope type) :
    (Word.name place.text).Plain visible helpers := by
  cases h with
  | @named name _ hlookup =>
      obtain ⟨before, after, hsymbols, -⟩ := List.lookup_eq_some_iff.mp hlookup
      have hmem : (name, type) ∈ symbols := by simp [hsymbols]
      rw [Place.text]
      exact plain_of_isGenerated (isGenerated_variableName name) (hcovers.named (name, type) hmem)
  | @numbered index _ hlookup =>
      obtain ⟨before, after, hscope, -⟩ := List.lookup_eq_some_iff.mp hlookup
      have hmem : (index, type) ∈ scope := by simp [hscope]
      rw [Place.text]
      exact plain_of_isGenerated (isGenerated_temporaryName index)
        (hcovers.numbered (index, type) hmem)

/-- The words of a typed initializer are plain if it may call what it calls. -/
theorem plain_value {value : Value} {type : Ty} (h : value.HasType symbols scope type) :
    ∀ w ∈ value.words, w.Plain visible (value.calls = true) := by
  cases h with
  | int n =>
      refine List.forall_mem_singleton.mpr (plain_of_isNumberChar ?_ _ _)
      exact fun c hc => isNumberChar_of_isDigit (Number.isDigit_of_mem_toString hc)
  | float value =>
      intro w hw
      exact plain_of_isNumberChar (chars_words (isNumberChar_floatLiteral value) w hw) _ _
  | string text => exact List.forall_mem_singleton.mpr trivial
  | negate hoperand _ =>
      simp only [Value.words, List.forall_mem_cons]
      exact ⟨.fixed (by decide), plain_place hcovers hoperand, List.forall_mem_nil _⟩
  | operation op hleft hright _ =>
      have hsign : (Word.mark (signMark op)).IsFixed := by cases op <;> decide
      simp only [Value.words, List.forall_mem_cons]
      exact ⟨plain_place hcovers hleft, .fixed hsign, plain_place hcovers hright,
        List.forall_mem_nil _⟩
  | concat hleft hright =>
      simp only [Value.words, List.forall_mem_cons]
      exact ⟨plain_of_mem_helperNames (by decide) rfl, .fixed (by decide),
        plain_place hcovers hleft, .fixed (by decide), plain_place hcovers hright,
        .fixed (by decide), List.forall_mem_nil _⟩

end Places

/-! ## Code -/

namespace Leads

variable {c m c' : Context} {i : Instr} {others : List Instr}

theorem cons (hi : Leads (i.calls = true) c i.words m)
    (hothers : Leads (Instr.callsAny others = true) m (Instr.wordsAll others) c') :
    Leads (Instr.callsAny (i :: others) = true) c (Instr.wordsAll (i :: others)) c' := by
  have hcalls : (i.calls = true ∨ Instr.callsAny others = true) →
      Instr.callsAny (i :: others) = true := by
    rw [Instr.callsAny, Bool.or_eq_true]
    exact id
  exact (hi.mono fun h => hcalls (.inl h)).append (hothers.mono fun h => hcalls (.inr h))

variable {top : List String} {blocks : List (List String)} {declared : List String}

theorem fixed {ws : List Word} (h : ∀ w ∈ ws, w.IsFixed) :
    Leads helpers ⟨false, blocks, declared⟩ ws ⟨false, blocks, declared⟩ :=
  .plain fun w hw => .fixed (h w hw)

/-- A declaration with its first value. -/
theorem initialized {x : String} (hx : IsGenerated x) (type : Ty) {value : List Word}
    (hvalue : ∀ w ∈ value, w.Plain ((x :: top) :: blocks).flatten helpers) :
    Leads helpers ⟨false, top :: blocks, declared⟩
      (typeWords type ++ [.name x] ++ (.mark '=' :: value ++ [.mark ';']))
      ⟨false, (x :: top) :: blocks, declared ++ [x]⟩ := by
  have htype : Leads helpers ⟨false, top :: blocks, declared⟩ (typeWords type)
      ⟨true, top :: blocks, declared⟩ := by
    have hnames : ∀ x ∈ ["int", "float", "const", "char"],
        ¬ IsGenerated x ∧ x ∉ helperNames := by
      decide
    have hwords : ∀ x, .name x ∈ typeWords type → ¬ IsGenerated x ∧ x ∉ helperNames := by
      intro x hx
      refine hnames x ?_
      cases type <;> simp [typeWords] at hx <;> simp [hx]
    refine ⟨?_, Context.resolves_of_not_isGenerated (fun x hx => (hwords x hx).1) _, .of_forall ?_,
      fun x hx hmem => absurd hx (hwords x hmem).2⟩
    · cases type <;> rfl
    · cases type <;> simp [typeWords]
  refine (htype.append (.declaration hx)).append (.plain ?_)
  simp only [List.cons_append, List.forall_mem_cons, List.forall_mem_append]
  exact ⟨.fixed (by decide), hvalue, .fixed (by decide), List.forall_mem_nil _⟩

end Leads

/-! ## Typed code -/

section Instructions

variable {top : List String} {blocks : List (List String)} {declared : List String}
  (hcovers : Covers symbols scope (top :: blocks).flatten)
include hcovers

theorem leads_define {type : Ty} {value : Value} (hvalue : value.HasType symbols scope type)
    (index : Nat) :
    Leads ((Instr.define type index value).calls = true) ⟨false, top :: blocks, declared⟩
      (Instr.define type index value).words
      ⟨false, (temporaryName index :: top) :: blocks, declared ++ [temporaryName index]⟩ := by
  have hwider : Covers symbols scope ((temporaryName index :: top) :: blocks).flatten :=
    hcovers.mono (List.subset_cons_self _ _)
  exact .initialized (isGenerated_temporaryName index) type (plain_value hwider hvalue)

theorem leads_assign {target : String} {value : Place} {targetType type : Ty}
    (htarget : (Place.variable target).HasType symbols scope targetType)
    (hvalue : value.HasType symbols scope type) :
    Leads helpers ⟨false, top :: blocks, declared⟩ (Instr.assign target value).words
      ⟨false, top :: blocks, declared⟩ := by
  refine .plain ?_
  simp only [Instr.words, List.forall_mem_cons]
  exact ⟨plain_place hcovers htarget, .fixed (by decide), plain_place hcovers hvalue,
    .fixed (by decide), List.forall_mem_nil _⟩

theorem leads_print {value : Place} {type : Ty} (hvalue : value.HasType symbols scope type)
    (printed : Ty) :
    Leads helpers ⟨false, top :: blocks, declared⟩ (Instr.print printed value).words
      ⟨false, top :: blocks, declared⟩ := by
  refine .plain ?_
  simp only [Instr.words, List.forall_mem_cons]
  exact ⟨.fixed (by decide), .fixed (by decide), .fixed (by decide), .fixed (by decide),
    plain_place hcovers hvalue, .fixed (by decide), .fixed (by decide), List.forall_mem_nil _⟩

theorem leads_scan {target : String} {type : Ty}
    (htarget : (Place.variable target).HasType symbols scope type) (scanned : Ty) :
    Leads helpers ⟨false, top :: blocks, declared⟩ (Instr.scan scanned target).words
      ⟨false, top :: blocks, declared⟩ := by
  refine .plain ?_
  simp only [Instr.words, List.forall_mem_cons]
  exact ⟨.fixed (by decide), .fixed (by decide), .fixed (by decide), .fixed (by decide),
    .fixed (by decide), plain_place hcovers htarget, .fixed (by decide), .fixed (by decide),
    List.forall_mem_nil _⟩

theorem leads_scanString {target : String} {type : Ty}
    (htarget : (Place.variable target).HasType symbols scope type) :
    Leads ((Instr.scanString target).calls = true) ⟨false, top :: blocks, declared⟩
      (Instr.scanString target).words ⟨false, top :: blocks, declared⟩ := by
  refine .plain ?_
  simp only [Instr.words, List.forall_mem_cons]
  exact ⟨plain_place hcovers htarget, .fixed (by decide),
    plain_of_mem_helperNames (by decide) rfl, .fixed (by decide), .fixed (by decide),
    .fixed (by decide), List.forall_mem_nil _⟩

theorem leads_leaveUnless {condition : Place} {type : Ty}
    (hcondition : condition.HasType symbols scope type) :
    Leads helpers ⟨false, top :: blocks, declared⟩ (Instr.leaveUnless condition).words
      ⟨false, top :: blocks, declared⟩ := by
  refine .plain ?_
  simp only [Instr.words, List.forall_mem_cons]
  exact ⟨.fixed (by decide), .fixed (by decide), .fixed (by decide),
    plain_place hcovers hcondition, .fixed (by decide), .fixed (by decide), .fixed (by decide),
    List.forall_mem_nil _⟩

end Instructions

section Blocks

variable {blocks : List (List String)} {inner inner' declared declared' declared'' : List String}

theorem leads_loop {body : List Instr}
    (hbody : Leads (Instr.callsAny body = true) ⟨false, [] :: blocks, declared⟩
      (Instr.wordsAll body) ⟨false, inner :: blocks, declared'⟩) :
    Leads ((Instr.loop body).calls = true) ⟨false, blocks, declared⟩ (Instr.loop body).words
      ⟨false, blocks, declared'⟩ := by
  have hhead : ∀ w ∈ [Word.name "while", .mark '(', .name "1", .mark ')'], w.IsFixed := by decide
  exact (Leads.fixed hhead).append hbody.block

theorem leads_branch {scope : List (Nat × Ty)} {condition : Place} {type : Ty}
    {yes no : List Instr} (hcovers : Covers symbols scope blocks.flatten)
    (hcondition : condition.HasType symbols scope type)
    (hyes : Leads (Instr.callsAny yes = true) ⟨false, [] :: blocks, declared⟩
      (Instr.wordsAll yes) ⟨false, inner :: blocks, declared'⟩)
    (hno : Leads (Instr.callsAny no = true) ⟨false, [] :: blocks, declared'⟩
      (Instr.wordsAll no) ⟨false, inner' :: blocks, declared''⟩) :
    Leads ((Instr.branch condition yes no).calls = true) ⟨false, blocks, declared⟩
      (Instr.branch condition yes no).words ⟨false, blocks, declared''⟩ := by
  have hhead : Leads ((Instr.branch condition yes no).calls = true) ⟨false, blocks, declared⟩
      [.name "if", .mark '(', .name condition.text, .mark ')'] ⟨false, blocks, declared⟩ := by
    refine .plain ?_
    simp only [List.forall_mem_cons]
    exact ⟨.fixed (by decide), .fixed (by decide), plain_place hcovers hcondition,
      .fixed (by decide), List.forall_mem_nil _⟩
  have hcalls : (Instr.callsAny yes = true ∨ Instr.callsAny no = true) →
      (Instr.branch condition yes no).calls = true := by
    rw [Instr.calls, Bool.or_eq_true]
    exact id
  have hboth := hhead.append (hyes.block.mono fun h => hcalls (.inl h))
  rw [Instr.words]
  cases no with
  | nil =>
      -- Without a second block there is nothing to declare.
      obtain ⟨⟩ : declared' = declared'' := (Context.mk.inj hno.after).2.2
      exact hboth.append (.nil _)
  | cons first others =>
      have helse : Leads ((Instr.branch condition yes (first :: others)).calls = true)
          ⟨false, blocks, declared'⟩ [.name "else"] ⟨false, blocks, declared'⟩ :=
        .fixed (by decide)
      exact hboth.append (helse.append (hno.block.mono fun h => hcalls (.inr h)))

end Blocks

/-- The words of typed code declare the temporaries that the code defines, in their order, and
use what is visible. -/
theorem leads_wordsAll {scope' : List (Nat × Ty)} {code : List Instr}
    (h : Typed symbols scope code scope') (top : List String) (blocks : List (List String))
    (declared : List String) (hcovers : Covers symbols scope (top :: blocks).flatten) :
    ∃ top', Leads (Instr.callsAny code = true) ⟨false, top :: blocks, declared⟩
      (Instr.wordsAll code)
      ⟨false, top' :: blocks, declared ++ (Instr.definedAll code).map temporaryName⟩ := by
  induction h generalizing top blocks declared with
  | nil =>
      rw [Instr.definedAll, List.map_nil, List.append_nil]
      exact ⟨top, .nil _⟩
  | @define _ _ _ type index _ _ hvalue _ ih =>
      obtain ⟨top', hrest⟩ := ih (temporaryName index :: top) blocks
        (declared ++ [temporaryName index]) (hcovers.define index type)
      rw [List.append_assoc] at hrest
      exact ⟨top', .cons (leads_define hcovers hvalue index) hrest⟩
  | assign htarget hvalue _ _ ih =>
      obtain ⟨top', hrest⟩ := ih top blocks declared hcovers
      exact ⟨top', .cons (leads_assign hcovers htarget hvalue) hrest⟩
  | print hvalue _ _ ih =>
      obtain ⟨top', hrest⟩ := ih top blocks declared hcovers
      exact ⟨top', .cons (leads_print hcovers hvalue _) hrest⟩
  | scan htarget _ _ _ ih =>
      obtain ⟨top', hrest⟩ := ih top blocks declared hcovers
      exact ⟨top', .cons (leads_scan hcovers htarget _) hrest⟩
  | scanString htarget _ ih =>
      obtain ⟨top', hrest⟩ := ih top blocks declared hcovers
      exact ⟨top', .cons (leads_scanString hcovers htarget) hrest⟩
  | leaveUnless hcondition _ ih =>
      obtain ⟨top', hrest⟩ := ih top blocks declared hcovers
      exact ⟨top', .cons (leads_leaveUnless hcovers hcondition) hrest⟩
  | loop _ _ ihbody ih =>
      -- In the block all that is open around it is still visible, so the same places are covered.
      obtain ⟨inner, hbody⟩ := ihbody [] (top :: blocks) declared hcovers
      obtain ⟨top', hrest⟩ := ih top blocks _ hcovers
      rw [Instr.definedAll, Instr.defined, List.map_append, ← List.append_assoc]
      exact ⟨top', .cons (leads_loop hbody) hrest⟩
  | branch hcondition _ _ _ ihyes ihno ih =>
      obtain ⟨inner, hyes⟩ := ihyes [] (top :: blocks) declared hcovers
      obtain ⟨inner', hno⟩ := ihno [] (top :: blocks) _ hcovers
      obtain ⟨top', hrest⟩ := ih top blocks _ hcovers
      rw [Instr.definedAll, Instr.defined, List.map_append, List.map_append, ← List.append_assoc,
        ← List.append_assoc]
      exact ⟨top', .cons (leads_branch hcovers hcondition hyes hno) hrest⟩

end ImpToC.C
