import Furthest.Proofs.EntryPoints.LogBlind
import Furthest.Script.Eval

/-!
# No function of the script language looks at the log

Each named function is a few steps that do not look at the log (`Script.logBlind_find`), and terms
are evaluated by such functions only (`Script.logBlind_eval`), by recursion on the term.  So runs
whose functions are those of a script do not look at the log (`Script.logBlind_script`).
-/

namespace Furthest.Script

open Machine Primitive

/-- A named function does not look at the log if what it runs and calls does not. -/
def LogBlindPrimitive (f : Primitive) : Prop :=
  ∀ t : Tools Function, LogBlindTools t → ∀ args, LogBlind (f t args)

/-! ## Named functions -/

theorem logBlind_demand {α : Type} (checked : Checked.Built Function α) :
    LogBlind (demand checked) := by
  cases checked with
  | ok a => exact .pure a
  | error cause => exact .throw _

theorem logBlind_object (asker : String) (v : Val) : LogBlind (object asker v) := by
  cases v with
  | parser r => exact .pure r
  | _ => exact .throw _

theorem logBlind_parseWith {t : Tools Function} (ht : LogBlindTools t) (p text env : Val) :
    LogBlind (parseWith t p text env) :=
  (logBlind_object _ p).bind fun r => (logBlind_demand _).bind fun s =>
    logBlind_parse ht r s.toList env

theorem logBlind_parseMethod {t : Tools Function} (ht : LogBlindTools t) (p text env : Val) :
    LogBlind (parseMethod t p text env) := by
  cases p with
  | parser r => exact logBlind_parseWith ht _ text env
  | _ => exact .throw _

theorem logBlind_valueOrFault (text : Val) (outcome : Outcome Function) :
    LogBlind (valueOrFault text outcome) := by
  cases outcome with
  | ok v => exact .pure v
  | error r => exact .throw _

theorem logBlind_construct (name : String) (f : Constructor) :
    LogBlindPrimitive (construct name f) := by
  intro t _ args
  unfold construct
  split
  · next built _ =>
    cases built with
    | ok c => exact (logBlind_allocate c).bind fun r => .pure _
    | error cause => exact .throw _
  · exact .throw _

theorem logBlind_ofOp (op : Builtin.Op) : LogBlindPrimitive (ofOp op) := by
  intro t _ args
  unfold ofOp
  split
  · exact .pure _
  · exact .throw _

theorem logBlind_parsing {t : Tools Function} (ht : LogBlindTools t) (args : List Val) :
    LogBlind (parse t args) ∧ LogBlind (runParser t args) ∧ LogBlind (parseOrRaise t args) ∧
      LogBlind (parseAsMethod t args) := by
  refine ⟨?_, ?_, ?_, ?_⟩
  · unfold parse
    split
    · exact (logBlind_parseWith ht _ _ _).bind fun _ => .pure _
    · exact (logBlind_parseWith ht _ _ _).bind fun _ => .pure _
    · exact .throw _
  · unfold runParser
    split
    · exact (logBlind_parseWith ht _ _ _).bind fun _ => .pure _
    · exact (logBlind_parseWith ht _ _ _).bind fun _ => .pure _
    · exact .throw _
  · unfold parseOrRaise
    split
    · exact (logBlind_parseMethod ht _ _ _).bind fun _ => logBlind_valueOrFault _ _
    · exact (logBlind_parseMethod ht _ _ _).bind fun _ => logBlind_valueOrFault _ _
    · exact .throw _
  · unfold parseAsMethod
    split
    · exact (logBlind_parseMethod ht _ _ _).bind fun _ => .pure _
    · exact (logBlind_parseMethod ht _ _ _).bind fun _ => .pure _
    · exact .throw _

theorem logBlind_lazily : LogBlindPrimitive lazily := by
  intro t _ args
  unfold lazily
  split
  · exact (logBlind_demand _).bind fun f => (logBlind_allocateDeferred f).bind fun r => .pure _
  · exact .throw _

theorem logBlind_cloning : LogBlindPrimitive clone := by
  intro t _ args
  unfold clone
  split
  · exact (logBlind_object _ _).bind fun r => (logBlind_clone r).bind fun _ => .pure _
  · exact .throw _

theorem logBlind_replacing : LogBlindPrimitive replace := by
  intro t _ args
  unfold replace
  split
  · exact (logBlind_object _ _).bind fun r => (logBlind_object _ _).bind fun substitute =>
      (logBlind_replace r substitute).bind fun _ => .pure _
  · exact .throw _

theorem logBlind_named : LogBlindPrimitive named := by
  intro t _ args
  unfold named
  split
  · exact (logBlind_modify fun _ => rfl).bind fun _ => .pure _
  · exact .throw _
  · exact .throw _

theorem logBlind_nameOf : LogBlindPrimitive nameOf := by
  intro t _ args
  unfold nameOf
  split
  · exact (logBlind_cell _).bind fun c => .pure _
  · exact .throw _
  · exact .throw _

theorem logBlind_expressionParser : LogBlindPrimitive expressionParser := by
  intro t _ args
  unfold expressionParser
  split
  · refine (logBlind_demand _).bind fun made => ?_
    cases made with
    | some c => exact (logBlind_allocate c).bind fun r => .pure _
    | none => exact .pure _
  · exact .throw _

theorem logBlind_call : LogBlindPrimitive call := by
  intro t ht args
  unfold call
  split
  · exact ht.call _ _
  · exact .throw _

theorem logBlind_noting : LogBlindPrimitive note := by
  intro t _ args
  unfold note
  split
  · exact (logBlind_note _).bind fun _ => .pure _
  · exact .throw _

theorem logBlind_repr : LogBlindPrimitive repr := by
  intro t _ args
  unfold repr
  split
  · exact (logBlind_display _).bind fun _ => .pure _
  · exact .throw _

theorem logBlind_str : LogBlindPrimitive str := by
  intro t _ args
  unfold str
  split
  · exact (logBlind_describe _).bind fun _ => .pure _
  · exact .throw _

/-- The functions that use parser objects do not look at the log. -/
theorem logBlind_users : ∀ entry ∈ users, LogBlindPrimitive entry.2 := by
  simp only [users, List.forall_mem_cons]
  refine ⟨fun t ht args => (logBlind_parsing ht args).1,
    fun t ht args => (logBlind_parsing ht args).2.1,
    fun t ht args => (logBlind_parsing ht args).2.2.1,
    fun t ht args => (logBlind_parsing ht args).2.2.2, logBlind_lazily, logBlind_cloning,
    logBlind_replacing, logBlind_named, logBlind_nameOf, logBlind_expressionParser, ?_, ?_, ?_, ?_,
    ?_, logBlind_call, logBlind_noting, logBlind_repr, logBlind_str, by simp⟩
  all_goals exact fun _ _ _ => .pure _

theorem logBlind_library : ∀ entry ∈ library, LogBlindPrimitive entry.2 := by
  intro entry he
  simp only [library, List.mem_append, List.mem_map] at he
  rcases he with (⟨⟨name, f⟩, -, rfl⟩ | he) | ⟨⟨name, op⟩, -, rfl⟩
  · exact logBlind_construct name f
  · exact logBlind_users entry he
  · exact logBlind_ofOp op

theorem logBlind_find {name : String} {f : Primitive} (h : find? name = some f) :
    LogBlindPrimitive f :=
  have ⟨before, after, hmem, _⟩ := List.lookup_eq_some_iff.1 h
  logBlind_library (name, f) (by rw [hmem]; simp)

/-! ## Terms -/

theorem logBlind_lookUp (globals scope : Scope) (name : String) :
    LogBlind (lookUp globals scope name) := by
  unfold lookUp
  split
  · exact .pure _
  · exact .throw _

/-- Going on with the function of a name. -/
theorem logBlind_resolve (name : String) {β : Type} {k : Primitive → Machine Function β}
    (hk : ∀ f, LogBlindPrimitive f → LogBlind (k f)) : LogBlind (resolve name >>= k) := by
  unfold resolve
  split
  · next f h => exact hk f (logBlind_find h)
  · exact .throw _

section

variable {t : Tools Function}

mutual

theorem logBlind_eval (ht : LogBlindTools t) (globals scope : Scope) :
    (e : Term) → LogBlind (eval t globals scope e)
  | .null | .bool _ | .int _ | .float _ | .text _ | .bytes _ => .pure _
  | .pattern text options ofBytes => by
    unfold eval
    split
    · exact .pure _
    · exact .throw _
  | .list items | .tuple items => by
    unfold eval
    exact (logBlind_evalAll ht globals scope items).bind fun _ => .pure _
  | .dict entries => by
    unfold eval
    exact (logBlind_evalEntries ht globals scope entries).bind fun _ => .pure _
  | .ref name => by
    unfold eval
    exact logBlind_lookUp globals scope name
  | .lambda _ _ _ => by
    unfold eval
    exact .pure _
  | .function name => by
    unfold eval
    exact logBlind_resolve name fun _ _ => .pure _
  | .ite condition whenTrue whenFalse => by
    unfold eval
    refine (logBlind_eval ht globals scope condition).bind fun v => ?_
    split
    · exact logBlind_eval ht globals scope whenTrue
    · exact logBlind_eval ht globals scope whenFalse
  | .apply name args => by
    unfold eval
    exact logBlind_resolve name fun f hf => (logBlind_evalAll ht globals scope args).bind (hf t ht)

theorem logBlind_evalAll (ht : LogBlindTools t) (globals scope : Scope) :
    (items : List Term) → LogBlind (evalAll t globals scope items)
  | [] => .pure _
  | a :: args => by
    unfold evalAll
    exact (logBlind_eval ht globals scope a).bind fun _ =>
      (logBlind_evalAll ht globals scope args).bind fun _ => .pure _

theorem logBlind_evalEntries (ht : LogBlindTools t) (globals scope : Scope) :
    (entries : List (String × Term)) → LogBlind (evalEntries t globals scope entries)
  | [] => .pure _
  | (_, a) :: entries => by
    unfold evalEntries
    exact (logBlind_eval ht globals scope a).bind fun _ =>
      (logBlind_evalEntries ht globals scope entries).bind fun _ => .pure _

end

end

theorem logBlind_applyFunction (globals : Scope) : LogBlindFunctions (applyFunction globals) := by
  intro t ht f args
  cases f with
  | closure name? params body scope =>
    simp only [applyFunction]
    split
    · exact logBlind_eval ht _ _ body
    · exact .throw _
  | named name =>
    simp only [applyFunction]
    exact logBlind_resolve name fun f hf => hf t ht args

/-- No run of a script looks at the log. -/
theorem logBlind_script (globals : Scope) (budget depth : Nat) :
    LogBlindTools (tools (applyFunction globals) budget depth) :=
  logBlind_tools (logBlind_applyFunction globals) budget depth

end Furthest.Script
