import ApeScript.Proofs.FormatText
import ApeScript.Proofs.RereadExpression

/-!
# Formatting values that are read again

Formatting strings are read as they stand and written with escapes. So a list of formatting values
comes back from its text if no string of it has a quote, a backslash or a newline, and only then;
without quotes it comes back with every string escaped once more. This holds of the lists after a
text and of the arguments of a choice alike.
-/

namespace ApeScript

def File.formatLists (f : File) : List (List FormatValue) :=
  f.windows.flatMap (fun w => w.commands.map Command.formats) ++
    f.switches.flatMap fun s => s.commands.map fun p => p.statement.format

theorem File.Compiled.formatLists {o : Options} {f : File} (hf : f.Compiled o)
    {vs : List FormatValue} (hvs : vs ∈ f.formatLists) : ∀ v ∈ vs, v.Compiled := by
  rcases List.mem_append.1 hvs with hvs | hvs
  · obtain ⟨w, hw, hvs⟩ := List.mem_flatMap.1 hvs
    obtain ⟨command, hcommand, rfl⟩ := List.mem_map.1 hvs
    exact ((hf.windows w hw).commands command hcommand).formats
  · obtain ⟨switch, hswitch, hvs⟩ := List.mem_flatMap.1 hvs
    obtain ⟨p, hp, rfl⟩ := List.mem_map.1 hvs
    exact ((hf.switches switch hswitch).commands p hp).formats

namespace FormatValue

def Verbatim (v : FormatValue) : Prop := ∀ b ∈ v.literal, ¬ Script.Special b

instance (v : FormatValue) : Decidable v.Verbatim :=
  inferInstanceAs (Decidable (∀ b ∈ v.literal, _))

theorem Verbatim.unbroken {v : FormatValue} (hv : v.Verbatim) : 34 ∉ v.literal :=
  fun h => hv 34 h (Or.inr (Or.inr rfl))

/-- A reader that escapes strings without quotes once more and never gives a string with one gives
a list back if nothing in it has to be escaped, and only then. -/
theorem comes_back_iff {σ ε α : Type} {result : EStateM.Result ε σ α}
    (values : α → List FormatValue) (vs : List FormatValue)
    (hescaped : (∀ v ∈ vs, 34 ∉ v.literal) →
      ∃ a t, result = .ok a t ∧ values a = vs.map reread)
    (hunbroken : ∀ a t, result = .ok a t → ∀ v ∈ values a, 34 ∉ v.literal) :
    (∃ a t, result = .ok a t ∧ values a = vs) ↔ ∀ v ∈ vs, v.Verbatim := by
  constructor
  · rintro ⟨a, t, hresult, rfl⟩
    obtain ⟨a', t', hresult', hvalues⟩ := hescaped (hunbroken a t hresult)
    cases hresult.symm.trans hresult'
    exact map_reread_eq_self_iff.1 hvalues.symm
  · intro h
    obtain ⟨a, t, hresult, hvalues⟩ := hescaped fun v hv => (h v hv).unbroken
    exact ⟨a, t, hresult, hvalues.trans (map_reread_eq_self_iff.2 h)⟩

end FormatValue

open Compiler in
/-- Every list of formatting values in a compiled file, written before the end of a line: it is read
with its strings escaped once more if they have no quotes, so that it comes back if nothing in it
has to be escaped, and only then. Before the label of a choice it is the same. -/
theorem compile_formats_reread (src : Bytes) (o : Options) (f : File)
    (h : (compile src o).result = .ok f) (vs : List FormatValue) (hvs : vs ∈ f.formatLists)
    (c : CompileContext) (setting : Lexer.Setting) (hmacros : setting.macros = [])
    (tail : Bytes) (htail : ∀ b ∈ tail.head?, b = 10) :
    (∀ s : CompileState, s.lexer.Stands setting ⟨[], Script.formatSource vs ++ tail⟩ →
      ((∀ v ∈ vs, 34 ∉ v.literal) → ∃ t, parseFormatList c s = .ok (vs.map FormatValue.reread) t ∧
        t.lexer.Left setting tail) ∧
      ((∃ t, parseFormatList c s = .ok vs t) ↔ ∀ v ∈ vs, v.Verbatim)) ∧
    ∀ (s : CompileState) (text : Bytes) (label : Label), label.isInline = false →
      44 :: text = Script.formatSource vs ++ utf8 ", " ++ label.text ++ tail →
      s.lexer.Stands setting ⟨[], text⟩ →
      ((∀ v ∈ vs, 34 ∉ v.literal) → ∃ t,
        parseChoiceArguments c s = .ok (vs.map FormatValue.reread, label) t ∧
          t.lexer.Stands setting ⟨[], tail⟩) ∧
      ((∃ t l, parseChoiceArguments c s = .ok (vs, l) t) ↔ ∀ v ∈ vs, v.Verbatim) := by
  have hf : f.Compiled o.effective := by
    have hcompile := compile_yields_compiled src o
    rwa [h] at hcompile
  have hcompiled := hf.formatLists hvs
  have hends : EndsOperand tail := by
    intro b hb
    obtain rfl := htail b hb
    decide
  have hwaits {s : CompileState} {text : Bytes} (hs : s.lexer.Stands setting ⟨[], text⟩) :
      s.lexer.Waits [] := ⟨hs.queue_eq_nil, hs.macros.trans hmacros⟩
  constructor
  · intro s hs
    obtain ⟨k, more, hnext, hk, htext⟩ : ∃ k more,
        Lexer.firstToken? setting.exponents .normal {} tail = some (k, more) ∧ k.1 ≠ .comma ∧
          k.2 ++ more = tail := by
      cases tail with
      | nil => exact ⟨(.endOfFile, []), [], rfl, by simp, rfl⟩
      | cons b rest =>
        obtain rfl := htail b rfl
        exact ⟨(.endOfLine, [10]), rest, rfl, by simp, rfl⟩
    have hescaped (hquotes : ∀ v ∈ vs, 34 ∉ v.literal) : ∃ t,
        parseFormatList c s = .ok (vs.map FormatValue.reread) t ∧ t.lexer.Left setting tail := by
      obtain ⟨_, t, hrun, rfl, ht, -⟩ :=
        readsFrom_parseFormatList (c := c) hmacros hcompiled hquotes hends hnext hk s s ⟨hs, rfl⟩
      exact ⟨t, hrun, k, more, htext, ht⟩
    refine ⟨hescaped, ?_⟩
    have hback := FormatValue.comes_back_iff id vs
      (fun hquotes => ?_) (gives_parseFormatList (c := c) (hwaits hs))
    · simpa using hback
    · obtain ⟨t, hrun, -⟩ := hescaped hquotes
      exact ⟨_, t, hrun, rfl⟩
  · intro s text label hlabel htext hs
    have htext' : 44 :: text = Script.formatSource vs ++ 44 :: 32 :: (label.text ++ tail) := by
      simpa [show utf8 ", " = [44, 32] from rfl] using htext
    have hescaped (hquotes : ∀ v ∈ vs, 34 ∉ v.literal) : ∃ t,
        parseChoiceArguments c s = .ok (vs.map FormatValue.reread, label) t ∧
          t.lexer.Stands setting ⟨[], tail⟩ := by
      obtain ⟨_, t, hrun, rfl, ht, -⟩ := readsFrom_parseChoiceArguments (c := c) hmacros hcompiled
        hquotes hlabel hends htext' s s ⟨hs, rfl⟩
      exact ⟨t, hrun, ht⟩
    refine ⟨hescaped, ?_⟩
    have hback := FormatValue.comes_back_iff Prod.fst vs
      (fun hquotes => ?_) (gives_parseChoiceArguments (c := c) (hwaits hs))
    · refine Iff.trans ?_ hback
      constructor
      · rintro ⟨t, l, hrun⟩
        exact ⟨(vs, l), t, hrun, rfl⟩
      · rintro ⟨⟨_, l⟩, t, hrun, rfl⟩
        exact ⟨t, l, hrun⟩
    · obtain ⟨t, hrun, -⟩ := hescaped hquotes
      exact ⟨_, t, hrun, rfl⟩

/-- A switch that shows a text with a number, a variable and a string, and one with a string that
has a backslash. -/
def formatScript : Bytes := utf8 "#switch 1:1\necho \"x\", 0, s$, \"c\"\necho \"y\", \"a\\b\"\n"

def plainValues : List FormatValue :=
  [⟨FormatType.float.code, .float .zero⟩, ⟨FormatType.stringVariableName.code, .name (utf8 "s$")⟩,
    ⟨FormatType.string.code, .quoted (utf8 "c")⟩]

def backslashValues : List FormatValue := [⟨FormatType.string.code, .quoted (utf8 "a\\b")⟩]

def formatFile : File where
  windows := []
  switches := [⟨10001, [⟨1, ⟨StatementType.echo.code, some (utf8 "x"), plainValues, none⟩⟩,
    ⟨7, ⟨StatementType.echo.code, some (utf8 "y"), backslashValues, none⟩⟩]⟩]

theorem compile_formats_reread_backslash :
    (compile formatScript Options.defaults).result = .ok formatFile ∧
      (∃ t, Compiler.parseFormatList ⟨Options.defaults, 0⟩
        ⟨.ofSource (Script.formatSource plainValues) [] true, [], 0, []⟩ = .ok plainValues t) ∧
      (∃ t l, Compiler.parseChoiceArguments ⟨Options.defaults, 0⟩
        ⟨.ofSource (utf8 " 0, s$, \"c\", 1:1\n") [] true, [], 0, []⟩ = .ok (plainValues, l) t) ∧
      ¬ ∃ t, Compiler.parseFormatList ⟨Options.defaults, 0⟩
        ⟨.ofSource (Script.formatSource backslashValues) [] true, [], 0, []⟩ =
          .ok backslashValues t := by
  have h : (compile formatScript Options.defaults).result = .ok formatFile := by cbv
  have hplain : plainValues ∈ formatFile.formatLists := List.mem_cons_self
  have hbackslash : backslashValues ∈ formatFile.formatLists :=
    List.mem_cons_of_mem _ List.mem_cons_self
  have hstart (text : Bytes) : (Lexer.ofSource text [] true).Stands .plain ⟨[], text⟩ :=
    ⟨rfl, rfl, rfl, rfl, rfl⟩
  have hverbatim : ∀ v ∈ plainValues, v.Verbatim := by decide +kernel
  have hescaped : ¬ ∀ v ∈ backslashValues, v.Verbatim := by decide +kernel
  refine ⟨h, ?_, ?_, ?_⟩
  · refine (((compile_formats_reread _ _ _ h _ hplain ⟨Options.defaults, 0⟩ .plain rfl []
      (by simp)).1 _ ?_).2).2 hverbatim
    rw [List.append_nil]
    exact hstart _
  · refine (((compile_formats_reread _ _ _ h _ hplain ⟨Options.defaults, 0⟩ .plain rfl [10]
      (by simp)).2 _ _ 10001 rfl ?_ (hstart _)).2).2 hverbatim
    cbv
  · refine mt (((compile_formats_reread _ _ _ h _ hbackslash ⟨Options.defaults, 0⟩ .plain rfl []
      (by simp)).1 _ ?_).2).1 hescaped
    rw [List.append_nil]
    exact hstart _

end ApeScript
