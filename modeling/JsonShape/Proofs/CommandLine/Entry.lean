import JsonShape.CommandLine.Run
import JsonShape.Host
import JsonShape.Proofs.CommandLine.Arguments
import JsonShape.Proofs.CommandLine.Integer
import JsonShape.Proofs.Prefix

/-!
# Ways in

A sample comes in as a stream, as bytes at hand, as a text, from a host or over the command line.
Whatever the way, the same bytes give the same schema or fail for the same reason
(`entries_agree`): the reads of a stream do not show in what it comes to (`Schema.ofSource_eq`), the
command line prints the one and complains of the other (`run_of_plan`), and a text comes in as the
bytes of its code points (`Utf8.encode_eq_textBytes`).
-/

namespace JsonShape

/-- What a source has for a schema depends on nothing but the bytes that it delivers. -/
theorem Schema.ofSource_eq {source source' : Source} {bytes : List UInt8}
    (h : source.Delivers bytes) (h' : source'.Delivers bytes) (layout : Layout) :
    ofSource source layout = ofSource source' layout := by
  obtain ⟨ts, answer, taken, hx⟩ := Scan.exists_lexes 0 bytes
  rw [ofSource, ofSource, survey_eq_conclude h hx, survey_eq_conclude h' hx]

namespace CommandLine

/-! ## A run for a schema -/

/-- What a run reads: the standard input, or the content of a file. -/
def input (stdin : List UInt8) (d : Directory) (path : Path) : Except Refusal (List UInt8) :=
  if isStandardInput path then .ok stdin else d.open? path

/-- A path that ends in a dash is never opened. -/
theorem input_of_name_eq {path : Path} (h : path.name = "-") (stdin : List UInt8)
    (d : Directory) : input stdin d path = .ok stdin := by
  simp [input, isStandardInput, h]

/-- Any other path is opened, and the standard input is not read. -/
theorem input_of_name_ne {path : Path} (h : path.name ≠ "-") (stdin : List UInt8)
    (d : Directory) : input stdin d path = d.open? path := by
  simp [input, isStandardInput, h]

/-- What the program does if a schema is planned. -/
theorem run_of_plan {args : List String} {name : String} {indent : Nat} {verbose : Bool}
    (h : plan args = .schema name indent verbose) (stdin : List UInt8) (d : Directory) :
    run args stdin d =
      match input stdin d (.ofString name) with
      | .ok bytes => answer (.ofString name) indent verbose
          (.ofBytes (some Source.defaultChunk) bytes)
      | .error refusal => refuse (.ofString name) refusal.reason := by
  rw [run, h]
  rfl

/-- What the program leaves behind without the log: the schema, or the reason why there is none. -/
def Outcome.ofResult : Except Failure String → Outcome
  | .ok text => { exit := 0, stdout := text ++ "\n", stderr := "" }
  | .error failure => { exit := 1, stdout := "", stderr := "Error: " ++ failure.message ++ "\n" }

/-- Without the log, nothing but the schema or the complaint is written. -/
theorem answer_quiet (path : Path) (indent : Nat) (source : Source) :
    answer path indent false source = .ofResult (Schema.ofSource source ⟨indent⟩) := by
  rw [answer, Schema.ofSource]
  cases (Schema.survey source).result with
  | ok shape => rfl
  | error failure => exact congrArg _ (String.empty_append ..)

/-! ## All ways -/

/-- All ways in agree on the same bytes. A stream that delivers them has the schema that they have
as they are, or fails for the same reason, and so do the file and the standard input that a command
line without a request for the log reads. The indent is any text that writes the number, its decimal
numeral above all, and the path may be left out. A text, which may hold lone surrogates, is taken as
the bytes that its code points have by their numbers, with the usual layout, and a host's name and
options make no difference. -/
theorem entries_agree (bytes : List UInt8) (n : Nat) :
    (∀ source : Source, source.Delivers bytes →
      Schema.ofSource source ⟨n⟩ = Schema.ofBytes bytes ⟨n⟩) ∧
    (∀ (args : List String) (name : String) (d : Directory), plan args = .schema name n false →
      ((Path.ofString name).name ≠ "-" → d.open? (.ofString name) = .ok bytes →
        ∀ stdin, run args stdin d = .ofResult (Schema.ofBytes bytes ⟨n⟩)) ∧
      ((Path.ofString name).name = "-" →
        run args bytes d = .ofResult (Schema.ofBytes bytes ⟨n⟩))) ∧
    (∀ value : String, Integer.read? value = some (n : Int) →
      plan ["--indent", value] = .schema "-" n false ∧
      ∀ path, Arguments.isOption path = false →
        plan ["--indent", value, path] = .schema path n false) ∧
    ((toString n).length ≤ Integer.maxDigits → Integer.read? (toString n) = some (n : Int)) ∧
    ∀ text name options : Text,
      Host.schema (.text name) (.text text) (.text options) =
        Schema.ofBytes (Grammar.textBytes text) ⟨4⟩ ∧
      Schema.ofText text {} = Schema.ofBytes (Grammar.textBytes text) ⟨4⟩ := by
  refine ⟨?_, ?_, ?_, Integer.read?_toString, ?_⟩
  · intro source hsource
    exact Schema.ofSource_eq hsource (Schema.delivers_defaultChunk bytes) ⟨n⟩
  · intro args name d hplan
    constructor
    · intro hname hopen stdin
      rw [run_of_plan hplan, input_of_name_ne hname, hopen]
      exact answer_quiet _ _ _
    · intro hname
      rw [run_of_plan hplan, input_of_name_eq hname]
      exact answer_quiet _ _ _
  · intro value hvalue
    exact ⟨plan_indent hvalue, fun path hpath => plan_indent_path hvalue hpath⟩
  · intro text name options
    have htext : Schema.ofText text {} = Schema.ofBytes (Grammar.textBytes text) ⟨4⟩ := by
      rw [Schema.ofText, Utf8.encode_eq_textBytes]
    exact ⟨htext, htext⟩

/-- A number in two reads, on the standard input and in a file: it is an integer on every way. A
string that is a lone surrogate in a text: the three bytes that it has are no character, and the
same is wrong with them on the standard input. -/
theorem entries_agree_surrogate :
    let bytes : List UInt8 := [0x2D, 0x31]
    let source : Source := [.bytes [0x2D], .bytes [0x31], .bytes []]
    let d : Directory := [(["a"], .file bytes)]
    let text : Text := [⟨0x22, by omega⟩, ⟨0xD800, by omega⟩, ⟨0x22, by omega⟩]
    let sample : List UInt8 := [0x22, 0xED, 0xA0, 0x80, 0x22]
    let failure : Failure := .input ⟨.invalidUtf8, some 0⟩
    (source.Delivers bytes ∧ Schema.ofSource source ⟨2⟩ = .ok "int" ∧
      (Path.ofString "./a").name ≠ "-" ∧ d.open? (.ofString "./a") = .ok bytes ∧
      run ["--indent", "2", "./a"] [] d = ⟨0, "int\n", ""⟩ ∧
      (Path.ofString "-").name = "-" ∧ run ["--indent", "2"] bytes d = ⟨0, "int\n", ""⟩) ∧
    Host.schema (.text []) (.text text) (.text []) = .error failure ∧
      Schema.ofText text {} = .error failure ∧
      run [] sample d = ⟨1, "", "Error: invalid UTF-8 in string (at byte 0)\n"⟩ := by
  intro bytes source d text sample failure
  have hsource : source.Delivers bytes := .chunk 0x2D [] (.chunk 0x31 [] (.ended []))
  have hx : Scan.Lexes 0 bytes [⟨.number, some "-1", 0⟩] .stop 2 := .token rfl (.last rfl nofun)
  have hshape : (Schema.survey source).result = .ok .int := Schema.survey_eq_conclude hsource hx
  have hout : Schema.ofSource source ⟨2⟩ = .ok "int" := by
    rw [Schema.ofSource, hshape]
    simp [Except.map, Shape.render, Shape.write, Shape.scalarName]
  obtain ⟨hstream, hrun, hplan, hnumeral, -⟩ := entries_agree bytes 2
  obtain ⟨hstdin, hfile⟩ := hplan "2" (hnumeral (by decide))
  have hbytes : Schema.ofBytes bytes ⟨2⟩ = .ok "int" := (hstream source hsource).symm.trans hout
  have hname : (Path.ofString "./a").name ≠ "-" := by decide +kernel
  have hopen : d.open? (.ofString "./a") = .ok bytes := by decide +kernel
  have hdash : (Path.ofString "-").name = "-" := by decide +kernel
  rw [hbytes] at hrun
  -- The lone surrogate.
  have hspelled : Grammar.textBytes text = sample := by decide +kernel
  have hscan : (Scan.blank.run 0 sample).conclude = (.fault ⟨.invalidUtf8, some 0⟩, 5, []) := by
    decide +kernel
  have hfault : ∀ t, Pull.fault ⟨.invalidUtf8, some 0⟩ ≠ .token t := by
    intro t ht
    cases ht
  have hwrong : Schema.ofBytes sample ⟨4⟩ = .error failure := by
    rw [Schema.ofBytes, Schema.ofSource,
      Schema.survey_eq_conclude (Schema.delivers_defaultChunk _) (.last hscan hfault)]
    rfl
  obtain ⟨-, hrun', -, -, htext⟩ := entries_agree sample 4
  obtain ⟨hhost, hsample⟩ := htext text [] []
  rw [hspelled, hwrong] at hhost hsample
  rw [hwrong] at hrun'
  exact ⟨⟨hsource, hout, hname, hopen, (hrun _ _ d (hfile "./a" (by decide))).1 hname hopen [],
    hdash, (hrun _ _ d hstdin).2 hdash⟩, hhost, hsample, (hrun' [] "-" d rfl).2 hdash⟩

end CommandLine

end JsonShape
