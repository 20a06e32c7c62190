import ImpToC.Proofs.Scoping.Words

/-!
# Scopes of C text

What the words of a text say of its blocks and declarations: which braces belong
together, which names are declared, in which block, and which of them are visible at a
place. A name is declared where it stands behind the name of a type.
-/

namespace ImpToC.C

/-- The names of the types with which variables are declared. -/
def typeNames : List String := ["int", "float", "char", "size_t"]

/-- The names of generated variables and temporaries. -/
def IsGenerated (x : String) : Prop := "v_".toList <+: x.toList ∨ "tmp_".toList <+: x.toList

instance (x : String) : Decidable (IsGenerated x) :=
  inferInstanceAs (Decidable (_ ∨ _))

/-- The functions for strings. -/
def helperNames : List String := ["ml_concat", "ml_read_string"]

/-- Types and helpers have no generated names. -/
theorem not_isGenerated : ∀ x ∈ typeNames ++ helperNames ++ ["main"], ¬ IsGenerated x := by
  decide

theorem IsGenerated.not_mem_typeNames {x : String} (h : IsGenerated x) : x ∉ typeNames :=
  fun hx => not_isGenerated x (by simp [hx]) h

theorem IsGenerated.not_mem_helperNames {x : String} (h : IsGenerated x) : x ∉ helperNames :=
  fun hx => not_isGenerated x (by simp [hx]) h

/-- A word in front of which nothing is declared and which is no brace. If it is the name of
a variable or a temporary, that is visible, and a helper is only named on a condition. -/
def Word.Plain (visible : List String) (helpers : Prop) : Word → Prop
  | .name x => x ∉ typeNames ∧ (IsGenerated x → x ∈ visible) ∧ (x ∈ helperNames → helpers)
  | .literal => True
  | .mark c => c ≠ '{' ∧ c ≠ '}'

theorem Word.Plain.ne_brace {visible : List String} {helpers : Prop} {w : Word}
    (h : w.Plain visible helpers) : w ≠ .mark '{' ∧ w ≠ .mark '}' := by
  refine ⟨?_, ?_⟩
  · rintro rfl
    exact h.1 rfl
  · rintro rfl
    exact h.2 rfl

/-! ## Braces -/

/-- How many braces are open behind some words, if none is closed that is not open. -/
def braceDepth : Nat → List Word → Option Nat
  | depth, [] => some depth
  | depth, w :: rest =>
    if w = .mark '{' then braceDepth (depth + 1) rest
    else if w = .mark '}' then if depth = 0 then none else braceDepth (depth - 1) rest
    else braceDepth depth rest

/-- Every brace that is closed is open there, and every open brace is closed. -/
def Balanced (ws : List Word) : Prop := braceDepth 0 ws = some 0

/-- Words that leave those braces open which are open in front of them. -/
def Closes (ws : List Word) : Prop :=
  ∀ depth rest, braceDepth depth (ws ++ rest) = braceDepth depth rest

namespace Closes

theorem nil : Closes [] := fun _ _ => rfl

theorem append {ws ws' : List Word} (h : Closes ws) (h' : Closes ws') : Closes (ws ++ ws') := by
  intro depth rest
  rw [List.append_assoc, h, h']

theorem block {ws : List Word} (h : Closes ws) : Closes (.mark '{' :: ws ++ [.mark '}']) := by
  intro depth rest
  have hopen : braceDepth depth (.mark '{' :: (ws ++ ([.mark '}'] ++ rest))) =
      braceDepth (depth + 1) (ws ++ ([.mark '}'] ++ rest)) := by
    rw [braceDepth, if_pos rfl]
  rw [List.append_assoc, List.cons_append, hopen, h]
  rfl

theorem balanced {ws : List Word} (h : Closes ws) : Balanced ws := by
  have hall := h 0 []
  rwa [List.append_nil] at hall

/-- Words without braces. -/
theorem of_forall {ws : List Word} (h : ∀ w ∈ ws, w ≠ .mark '{' ∧ w ≠ .mark '}') : Closes ws := by
  intro depth rest
  induction ws with
  | nil => rfl
  | cons w ws ih =>
      obtain ⟨⟨hopen, hclose⟩, hws⟩ := List.forall_mem_cons.mp h
      rw [List.cons_append, braceDepth, if_neg hopen, if_neg hclose, ih hws]

end Closes

/-- Words do with their braces inside of other braces what they do by themselves. -/
theorem braceDepth_append {ws : List Word} {depth behind : Nat}
    (h : braceDepth depth ws = some behind) (outer : Nat) (rest : List Word) :
    braceDepth (depth + outer) (ws ++ rest) = braceDepth (behind + outer) rest := by
  induction ws generalizing depth with
  | nil =>
      cases h
      rfl
  | cons w ws ih =>
      rw [braceDepth] at h
      rw [List.cons_append, braceDepth]
      split at h
      next hopen =>
        rw [if_pos hopen, Nat.add_right_comm]
        exact ih h
      next hopen =>
        rw [if_neg hopen]
        split at h
        next hclose =>
          split at h
          next => cases h
          next hdepth =>
            have hsub : depth + outer - 1 = depth - 1 + outer := by omega
            rw [if_pos hclose, if_neg (by omega), hsub]
            exact ih h
        next hclose =>
          rw [if_neg hclose]
          exact ih h

theorem Balanced.closes {ws : List Word} (h : Balanced ws) : Closes ws := by
  intro depth rest
  simpa using braceDepth_append h depth rest

/-! ## Declarations -/

/-- What has been declared up to a place in a text. -/
structure Context where
  /-- The words just before the place are a type. -/
  afterType : Bool
  /-- The names declared in the open blocks, the innermost block first. -/
  blocks : List (List String)
  /-- All names that have been declared, in the order of the text. -/
  declared : List String
  deriving DecidableEq, Repr

namespace Context

/-- The start of a text, outside of all braces. -/
def start : Context := ⟨false, [[]], []⟩

/-- Declare a name in the innermost block. -/
def declare (x : String) : List (List String) → List (List String)
  | [] => [[x]]
  | block :: blocks => (x :: block) :: blocks

/-- The context behind one more word. A star between a type and a name belongs to the
type. -/
def next (c : Context) : Word → Context
  | .name x =>
    if x ∈ typeNames then { c with afterType := true }
    else if c.afterType then ⟨false, declare x c.blocks, c.declared ++ [x]⟩
    else c
  | .mark m =>
    if m = '*' then c
    else if m = '{' then ⟨false, [] :: c.blocks, c.declared⟩
    else if m = '}' then ⟨false, c.blocks.tail, c.declared⟩
    else { c with afterType := false }
  | .literal => { c with afterType := false }

/-- The context behind some more words. -/
def after (c : Context) (ws : List Word) : Context := ws.foldl next c

/-- The names that are declared in the open blocks. -/
def visible (c : Context) : List String := c.blocks.flatten

/-- From a context on, generated names are visible where they are used, which is wherever
they are not declared. -/
def Resolves (c : Context) : List Word → Prop
  | [] => True
  | w :: rest =>
    (∀ x, w = .name x → IsGenerated x → c.afterType = false → x ∈ c.visible) ∧
      (c.next w).Resolves rest

theorem after_append (c : Context) (ws ws' : List Word) :
    c.after (ws ++ ws') = (c.after ws).after ws' := by
  simp [after]

theorem resolves_append {c : Context} {ws ws' : List Word} :
    c.Resolves (ws ++ ws') ↔ c.Resolves ws ∧ (c.after ws).Resolves ws' := by
  induction ws generalizing c with
  | nil => simp [Resolves, after]
  | cons w ws ih => simp [Resolves, ih, after, and_assoc]

theorem resolves_of_not_isGenerated {ws : List Word}
    (h : ∀ x, .name x ∈ ws → ¬ IsGenerated x) (c : Context) : c.Resolves ws := by
  induction ws generalizing c with
  | nil => trivial
  | cons w ws ih =>
      refine ⟨?_, ih (fun x hx => h x (List.mem_cons_of_mem _ hx)) _⟩
      rintro x rfl hx
      exact absurd hx (h x List.mem_cons_self)

/-- A use is visible in the context of the words before it. -/
theorem Resolves.mem_visible {c : Context} {before after : List Word} {x : String}
    (h : c.Resolves (before ++ .name x :: after)) (hx : IsGenerated x)
    (huse : (c.after before).afterType = false) : x ∈ (c.after before).visible :=
  (resolves_append.mp h).2.1 x rfl hx huse

end Context

/-- Some words lead from one context to another. Their braces belong together, what they use
is visible, and they name a helper on a condition only. -/
structure Leads (helpers : Prop) (c : Context) (ws : List Word) (c' : Context) : Prop where
  after : c.after ws = c'
  resolves : c.Resolves ws
  closes : Closes ws
  calls : ∀ x ∈ helperNames, .name x ∈ ws → helpers

namespace Leads

variable {helpers helpers' : Prop} {c m c' : Context} {ws ws' : List Word}

theorem nil (c : Context) : Leads helpers c [] c := ⟨rfl, trivial, .nil, nofun⟩

theorem mono (h : Leads helpers c ws c') (hhelpers : helpers → helpers') :
    Leads helpers' c ws c' :=
  ⟨h.after, h.resolves, h.closes, fun x hx hmem => hhelpers (h.calls x hx hmem)⟩

theorem append (h : Leads helpers c ws m) (h' : Leads helpers m ws' c') :
    Leads helpers c (ws ++ ws') c' where
  after := by rw [c.after_append, h.after, h'.after]
  resolves := Context.resolves_append.mpr ⟨h.resolves, h.after ▸ h'.resolves⟩
  closes := h.closes.append h'.closes
  calls := fun x hx hmem =>
    (List.mem_append.mp hmem).elim (h.calls x hx) (h'.calls x hx)

variable {top : List String} {blocks : List (List String)} {declared : List String}

/-- A name behind a type is declared. -/
theorem declaration {x : String} (hx : IsGenerated x) :
    Leads helpers ⟨true, top :: blocks, declared⟩ [.name x]
      ⟨false, (x :: top) :: blocks, declared ++ [x]⟩ where
  after := by
    simp [Context.after, Context.next, hx.not_mem_typeNames, Context.declare]
  resolves := ⟨fun _ _ _ huse => Bool.noConfusion huse, trivial⟩
  closes := .of_forall (List.forall_mem_singleton.mpr ⟨nofun, nofun⟩)
  calls := fun y hy hmem => by
    cases List.mem_singleton.mp hmem
    exact absurd hy hx.not_mem_helperNames

/-- A plain word changes nothing. -/
theorem word {w : Word} (h : w.Plain blocks.flatten helpers) :
    Leads helpers ⟨false, blocks, declared⟩ [w] ⟨false, blocks, declared⟩ where
  after := by
    cases w with
    | name x => simp [Context.after, Context.next, h.1]
    | literal => rfl
    | mark c => simp [Context.after, Context.next, h.1, h.2]
  resolves := by
    refine ⟨?_, trivial⟩
    rintro x rfl hx -
    exact h.2.1 hx
  closes := .of_forall (List.forall_mem_singleton.mpr h.ne_brace)
  calls := fun x hx hmem => by
    cases List.mem_singleton.mp hmem
    exact h.2.2 hx

theorem plain (h : ∀ w ∈ ws, w.Plain blocks.flatten helpers) :
    Leads helpers ⟨false, blocks, declared⟩ ws ⟨false, blocks, declared⟩ := by
  induction ws with
  | nil => exact .nil _
  | cons w ws ih =>
      obtain ⟨hw, hws⟩ := List.forall_mem_cons.mp h
      exact (word hw).append (ih hws)

/-- Behind a block nothing is visible of what has been declared in it. -/
theorem block {inner : List String} {declared' : List String}
    (h : Leads helpers ⟨false, [] :: blocks, declared⟩ ws ⟨false, inner :: blocks, declared'⟩) :
    Leads helpers ⟨false, blocks, declared⟩ (.mark '{' :: ws ++ [.mark '}'])
      ⟨false, blocks, declared'⟩ where
  after := by
    have hopen : (⟨false, blocks, declared⟩ : Context).after (.mark '{' :: ws) =
        ⟨false, inner :: blocks, declared'⟩ := h.after
    rw [Context.after_append, hopen]
    rfl
  resolves := Context.resolves_append.mpr ⟨⟨nofun, h.resolves⟩, nofun, trivial⟩
  closes := h.closes.block
  calls := fun x hx hmem => h.calls x hx (by simpa using hmem)

end Leads

end ImpToC.C
