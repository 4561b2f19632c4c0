import LoopHoist.Proofs.Command.Disk
import LoopHoist.Proofs.SSA.Hoist
import LoopHoist.Proofs.Source.Nonfinite

/-!
# What the command delivers

The output file is made before the input file is read.  As a rule these are two files, and
where the command succeeds its destination holds the program of the input file, optimised if
that was asked for.  But when both paths lead to one file, making it empties it, and the
command goes on with an empty program: whatever the file held is lost.  This is so on every
disk that keeps the laws, and however the arguments are read.
-/

namespace LoopHoist

/-! ## Programs without functions -/

namespace Program

/-- Without functions nothing but a line break is printed. -/
theorem text_eq_newline_iff {program : Program} : program.text = "\n" ↔ program.funcs = [] := by
  constructor
  · intro h
    cases hfuncs : program.funcs with
    | nil => rfl
    | cons func funcs =>
        have hlength := congrArg List.length (congrArg String.toList h)
        simp [Program.text, hfuncs, Func.text] at hlength
  · intro h
    rw [Program.text, h]
    rfl

theorem parse_empty : Program.parse "" = .ok ⟨[]⟩ := by
  refine eq_ok_of_toOption ?_
  decide +kernel

end Program

namespace Command

variable {State File : Type} {view : DiskView State File} {before made after : State} {file : File}
  {path input source text : String} {options : Options} {outcome : Outcome}

theorem Outcome.code_failed_ne_zero (failure : Failure) : (failed failure).code ≠ 0 := by
  cases failure with
  | disk error | write error | read error | fault fault => simp [failed]

namespace Options

/-! ## What is asked for -/

/-- The text that is to be written for a source text: the program that it holds, which is to be
optimised if level one is chosen and the program is not only to be read. -/
def Asks (options : Options) (source text : String) : Prop :=
  ∃ program, Program.parse source = .ok program ∧
    if options.parseOnly = false ∧ options.level = some 1 then
      ∃ optimized rounds, program.optimize
        { policy := if options.aliasAware then .aliasAware else .conservative
          maxRounds := options.maxRounds.getD 8 } = .ok (optimized, rounds) ∧ optimized.text = text
    else program.text = text

/-- What the destination holds at the end: standard output, or the output file if there is one.
-/
def delivered? (options : Options) (view : DiskView State File) (outcome : Outcome)
    (after : State) : Option String :=
  match options.output with
  | none => some outcome.stdout
  | some path => (view.locate after path).bind (view.content after)

theorem delivered?_of_located (houtput : options.output = some path)
    (hlocate : view.locate after path = some file)
    (hcontent : view.content after file = some text) :
    options.delivered? view outcome after = some text := by
  simp only [delivered?, houtput, hlocate, Option.bind_some, hcontent]

/-- Both paths lead to one file. -/
def OverwritesInput (options : Options) (view : DiskView State File) (before : State) : Prop :=
  ∃ output input file, options.output = some output ∧ options.input = some input ∧
    view.locate before output = some file ∧ view.locate before input = some file

theorem overwritesInput_iff (hcreates : view.Creates path before file made)
    (houtput : options.output = some path) (hinput : options.input = some input) {found : File}
    (hfound : view.locate before input = some found) :
    options.OverwritesInput view before ↔ found = file := by
  constructor
  · rintro ⟨_, _, shared, houtput', hinput', hthere, hhere⟩
    cases houtput.symm.trans houtput'
    cases hinput.symm.trans hinput'
    cases hfound.symm.trans hhere
    exact Option.some.inj ((hcreates.locate_eq hthere).symm.trans hcreates.located)
  · rintro rfl
    exact ⟨path, input, found, houtput, hinput, hcreates.locate_of_shared hfound, hfound⟩

theorem transform_eq_ok_iff_asks :
    options.transform source = .ok text ↔ options.Asks source text := by
  have hlevel : (options.parseOnly || options.chosenLevel != 1) = false ↔
      options.parseOnly = false ∧ options.level = some 1 := by
    cases hlevel : options.level <;> simp [chosenLevel, hlevel]
  unfold transform Asks
  cases hparse : Program.parse source with
  | error error => simp
  | ok program =>
      simp only [Except.ok.injEq, exists_eq_left', ← hlevel]
      cases hskip : options.parseOnly || options.chosenLevel != 1 with
      | true => simp
      | false =>
          simp only [Bool.false_eq_true, if_false, if_true, settings]
          split
          · rename_i fault hfault
            simp [hfault]
          · rename_i optimized rounds hoptimized
            simp [hoptimized]

theorem asks_newline_iff : options.Asks source "\n" ↔ Program.parse source = .ok ⟨[]⟩ := by
  rw [← transform_eq_ok_iff_asks]
  cases hparse : Program.parse source with
  | error error => simp [transform, hparse]
  | ok program =>
      obtain ⟨funcs⟩ := program
      obtain ⟨printed, htransform, hfuncs⟩ := Program.exists_transform_eq hparse options
      rw [htransform, Except.ok.injEq, Except.ok.injEq, Program.text_eq_newline_iff]
      constructor
      · intro hnone
        rw [hnone, List.forall₂_nil_right_iff] at hfuncs
        exact congrArg Program.mk hfuncs
      · rintro ⟨⟩
        exact List.forall₂_nil_left_iff.mp hfuncs

theorem asks_empty_iff : options.Asks "" text ↔ text = "\n" := by
  have hnewline : options.transform "" = .ok "\n" :=
    transform_eq_ok_iff_asks.mpr (asks_newline_iff.mpr Program.parse_empty)
  rw [← transform_eq_ok_iff_asks, hnewline, Except.ok.injEq, eq_comm]

end Options

/-! ## Runs that succeed -/

section

variable [Disk (StateM State) File] {output? : Option File}
  {reader : List String → Except Refusal Options} {arguments : List String}

/-- What the command says, and the disk when it has ended. -/
def perform (reader : List String → Except Refusal Options) (arguments : List String)
    (before : State) : Outcome × State :=
  StateT.run (m := Id) (runWith reader arguments) before

theorem run_proceed_of_ok {α : Type} {action : StateM State (Except DiskError α)}
    {failure : DiskError → Failure} {next : α → StateM State Outcome} {result : α}
    (h : StateT.run (m := Id) action before = (.ok result, after)) :
    StateT.run (m := Id) (proceed action failure next) before =
      StateT.run (m := Id) (next result) after := by
  rw [proceed, StateT.run_bind, h]
  rfl

/-- A command that succeeds has gone on after every action. -/
theorem proceed_of_code_eq_zero {α : Type} {action : StateM State (Except DiskError α)}
    {failure : DiskError → Failure} {next : α → StateM State Outcome}
    (hrun : StateT.run (m := Id) (proceed action failure next) before = (outcome, after))
    (hcode : outcome.code = 0) : ∃ result middle,
      StateT.run (m := Id) action before = (.ok result, middle) ∧
      StateT.run (m := Id) (next result) middle = (outcome, after) := by
  rw [proceed, StateT.run_bind] at hrun
  rcases haction : StateT.run (m := Id) action before with ⟨answer, middle⟩
  rw [haction] at hrun
  cases answer with
  | error error =>
      cases hrun
      exact absurd hcode (Outcome.code_failed_ne_zero _)
  | ok result => exact ⟨result, middle, rfl, hrun⟩

namespace Options

theorem asks_of_code_eq_zero
    (hrun : StateT.run (m := Id) (options.process output? source) before = (outcome, after))
    (hcode : outcome.code = 0) : ∃ text, options.Asks source text ∧
      StateT.run (m := Id) (options.deliver output? text) before = (outcome, after) := by
  rw [process] at hrun
  cases htransform : options.transform source with
  | error failure =>
      rw [htransform] at hrun
      cases hrun
      exact absurd hcode (Outcome.code_failed_ne_zero _)
  | ok text =>
      rw [htransform] at hrun
      exact ⟨text, transform_eq_ok_iff_asks.mp htransform, hrun⟩

/-- On success the input was read, and what is asked for its text was delivered. -/
theorem convert_of_code_eq_zero (hinput : options.input = some input)
    (hrun : StateT.run (m := Id) (options.convert output?) before = (outcome, after))
    (hcode : outcome.code = 0) : ∃ source text middle,
      StateT.run (m := Id) (Disk.read input) before = (.ok source, middle) ∧
      options.Asks source text ∧
      StateT.run (m := Id) (options.deliver output? text) middle = (outcome, after) := by
  rw [convert, hinput] at hrun
  obtain ⟨source, middle, hread, hprocess⟩ := proceed_of_code_eq_zero hrun hcode
  obtain ⟨text, hasks, hdeliver⟩ := asks_of_code_eq_zero hprocess hcode
  exact ⟨source, text, middle, hread, hasks, hdeliver⟩

/-! ## What is delivered -/

theorem delivered_of_output_none (lawful : view.IsLawful) (houtput : options.output = none)
    (hinput : options.input = some input) (hfile : view.locate before input = some file)
    (hrun : StateT.run (m := Id) options.run before = (outcome, after))
    (hcode : outcome.code = 0) : ∃ source text, view.content before file = some source ∧
      options.Asks source text ∧ options.delivered? view outcome after = some text := by
  rw [Options.run, houtput] at hrun
  obtain ⟨source, text, middle, hread, hasks, hdeliver⟩ :=
    convert_of_code_eq_zero hinput hrun hcode
  refine ⟨source, text, (lawful.read hread).content hfile, hasks, ?_⟩
  cases hdeliver
  rw [delivered?, houtput]

/-- The file that was made holds in the end what is asked for the text that the input file held
once it had been made. -/
theorem delivered_of_creates (lawful : view.IsLawful) (houtput : options.output = some path)
    (hinput : options.input = some input) (hcreates : view.Creates path before file made)
    {found : File} (hfound : view.locate made input = some found)
    (hrun : StateT.run (m := Id) (options.convert (some file)) made = (outcome, after))
    (hcode : outcome.code = 0) : ∃ source text, view.content made found = some source ∧
      options.Asks source text ∧ options.delivered? view outcome after = some text := by
  obtain ⟨source, text, middle, hread, hasks, hdeliver⟩ :=
    convert_of_code_eq_zero hinput hrun hcode
  have hreads := lawful.read hread
  have hempty : view.content middle file = some "" :=
    (hreads.content_eq file).trans hcreates.empty
  obtain ⟨_, last, hwrite, hend⟩ := proceed_of_code_eq_zero hdeliver hcode
  cases hend
  have hwrites := lawful.write hempty hwrite
  refine ⟨source, text, hreads.content hfound, hasks, delivered?_of_located houtput ?_
    hwrites.content⟩
  rw [hwrites.locate_eq, hreads.locate_eq, hcreates.located]

/-- On success the destination holds what is asked for the text of the input file, or, if that
is overwritten, for an empty text. -/
theorem exists_delivered (lawful : view.IsLawful) (hinput : options.input = some input)
    (hfile : view.locate before input = some file)
    (hrun : StateT.run (m := Id) options.run before = (outcome, after))
    (hcode : outcome.code = 0) : ∃ text, options.delivered? view outcome after = some text ∧
      (options.OverwritesInput view before ∧ options.Asks "" text ∨
        ¬options.OverwritesInput view before ∧
          ∃ source, view.content before file = some source ∧ options.Asks source text) := by
  cases houtput : options.output with
  | none =>
      obtain ⟨source, text, hcontent, hasks, hdelivered⟩ :=
        delivered_of_output_none lawful houtput hinput hfile hrun hcode
      refine ⟨text, hdelivered, .inr ⟨?_, source, hcontent, hasks⟩⟩
      rintro ⟨_, _, _, hsome, _⟩
      cases houtput.symm.trans hsome
  | some path =>
      rw [Options.run, houtput] at hrun
      obtain ⟨opened, made, hcreate, hconvert⟩ := proceed_of_code_eq_zero hrun hcode
      have hcreates := lawful.create hcreate
      obtain ⟨source, text, hcontent, hasks, hdelivered⟩ := delivered_of_creates lawful houtput
        hinput hcreates (hcreates.locate_eq hfile) hconvert hcode
      rw [overwritesInput_iff hcreates houtput hinput hfile]
      by_cases hsame : file = opened
      · subst hsame
        cases hcreates.empty.symm.trans hcontent
        exact ⟨text, hdelivered, .inl ⟨rfl, hasks⟩⟩
      · rw [hcreates.content_eq hsame] at hcontent
        exact ⟨text, hdelivered, .inr ⟨hsame, source, hcontent, hasks⟩⟩

end Options

/-- On any disk, and however the arguments are read, a destination holds what was asked for when
the command succeeds, unless the output file is the input file.  That one ends up with a line break,
which is what was asked for only if it held no function. -/
theorem delivered_iff_not_overwritten (lawful : view.IsLawful)
    (hoptions : reader arguments = .ok options) (hinput : options.input = some input)
    (hfile : view.locate before input = some file)
    (hrun : perform reader arguments before = (outcome, after)) (hcode : outcome.code = 0) :
    (options.OverwritesInput view before → options.delivered? view outcome after = some "\n") ∧
    ((∃ source text, view.content before file = some source ∧ options.Asks source text ∧
        options.delivered? view outcome after = some text) ↔
      ¬options.OverwritesInput view before ∨
        ∃ source, view.content before file = some source ∧ Program.parse source = .ok ⟨[]⟩) := by
  simp only [perform, runWith, hoptions] at hrun
  obtain ⟨text, hdelivered, ⟨hover, hasks⟩ | ⟨hapart, source, hcontent, hasks⟩⟩ :=
    Options.exists_delivered lawful hinput hfile hrun hcode
  · rw [Options.asks_empty_iff] at hasks
    subst hasks
    refine ⟨fun _ => hdelivered, ?_⟩
    simp only [hdelivered, Option.some.injEq, exists_eq_right_right', Options.asks_newline_iff,
      hover, not_true_eq_false, false_or]
  · refine ⟨fun hover => absurd hover hapart, fun _ => .inl hapart, fun _ => ?_⟩
    exact ⟨source, text, hcontent, hasks, hdelivered⟩

end

/-! ## On a disk that is a value -/

theorem DiskImage.perform_eq_of_transform {image made : DiskImage} {entry : Entry}
    {reader : List String → Except Refusal Options} {arguments : List String}
    (hoptions : reader arguments = .ok options) (houtput : options.output = some path)
    (hinput : options.input = some input) (hcreate : image.create path = .ok (entry, made))
    (hread : made.read input = .ok source) (htransform : options.transform source = .ok text) :
    perform reader arguments image = (⟨0, "", options.warning⟩, made.put entry text) := by
  have hmakes : StateT.run (m := Id) (Disk.create path) image = (.ok entry, made) := by
    rw [run_create, hcreate]
  have hreads : StateT.run (m := Id) (Disk.read input) made = (.ok source, made) :=
    congrArg (·, made) hread
  rw [perform, runWith, hoptions]
  simp only [Options.run, houtput, run_proceed_of_ok hmakes, Options.convert, hinput,
    run_proceed_of_ok hreads, Options.process, htransform]
  rfl

/-- The input is the only file, in a directory of its own. -/
def guardedImage : DiskImage := ⟨[(⟨Folder.working.down "src", "in.ll"⟩, guardedText)]⟩

def guardedArguments : List String :=
  ["-O1", "--alias-aware", "-o", "/work/src/../out.ll", "src/in.ll"]

/-- A loop whose load and division move out of it, written to a file of its own. -/
theorem guardedText_delivered : ∃ options outcome after text,
    Options.parse guardedArguments = .ok options ∧ options.input = some "src/in.ll" ∧
    DiskImage.view.locate guardedImage "src/in.ll" = some ⟨Folder.working.down "src", "in.ll"⟩ ∧
    perform Options.parse guardedArguments guardedImage = (outcome, after) ∧ outcome.code = 0 ∧
    options.Asks guardedText text ∧
    options.delivered? DiskImage.view outcome after = some text := by
  let options : Options :=
    { level := some 1, aliasAware := true, output := some "/work/src/../out.ll"
      input := some "src/in.ll" }
  have hoptions : Options.parse guardedArguments = .ok options := rfl
  have hfile : DiskImage.view.locate guardedImage "src/in.ll" =
    some ⟨Folder.working.down "src", "in.ll"⟩ := rfl
  have hcreate : guardedImage.create "/work/src/../out.ll" =
    .ok (⟨.working, "out.ll"⟩, guardedImage.put ⟨.working, "out.ll"⟩ "") := rfl
  have hread : (guardedImage.put ⟨.working, "out.ll"⟩ "").read "src/in.ll" = .ok guardedText := rfl
  obtain ⟨printed, htransform, _⟩ := Program.exists_transform_eq parse_guardedText options
  have hrun := DiskImage.perform_eq_of_transform hoptions rfl rfl hcreate hread htransform
  have hapart : ¬options.OverwritesInput DiskImage.view guardedImage := by
    rintro ⟨_, _, entry, ⟨⟩, ⟨⟩, hthere, _⟩
    cases hthere
  obtain ⟨source, text, ⟨⟩, hasks, hdelivered⟩ := (delivered_iff_not_overwritten
    DiskImage.isLawful_view hoptions rfl hfile hrun rfl).2.mpr (.inl hapart)
  exact ⟨options, _, _, text, hoptions, rfl, hfile, hrun, rfl, hasks, hdelivered⟩

/-- A directory in which the input is the only file. -/
def DiskImage.ofInput (source : String) : DiskImage := ⟨[(⟨.working, "in.ll"⟩, source)]⟩

/-- A text that is no program is accepted when it is overwritten, for what is read is empty. -/
theorem oopsText_overwritten : ∃ options outcome after,
    Options.parse ["-o", "in.ll", "in.ll"] = .ok options ∧ options.input = some "in.ll" ∧
    (DiskImage.ofInput "define oops").read "in.ll" = .ok "define oops" ∧
    perform Options.parse ["-o", "in.ll", "in.ll"] (DiskImage.ofInput "define oops") =
      (outcome, after) ∧
    outcome.code = 0 ∧ ¬∃ text, options.Asks "define oops" text ∧
      options.delivered? DiskImage.view outcome after = some text := by
  let options : Options := { output := some "in.ll", input := some "in.ll" }
  have hcreate : (DiskImage.ofInput "define oops").create "in.ll" =
    .ok (⟨.working, "in.ll"⟩, .ofInput "") := rfl
  have hread : (DiskImage.ofInput "").read "in.ll" = .ok "" := rfl
  have htransform : options.transform "" = .ok "\n" :=
    Options.transform_eq_ok_iff_asks.mpr (Options.asks_empty_iff.mpr rfl)
  refine ⟨options, _, _, rfl, rfl, rfl,
    DiskImage.perform_eq_of_transform rfl rfl rfl hcreate hread htransform, rfl, ?_⟩
  rintro ⟨text, ⟨program, hparse, _⟩, _⟩
  have hnone : (Program.parse "define oops").toOption = none := by
    rw [Program.toOption_parse_ofList]
    decide +kernel
  rw [hparse] at hnone
  cases hnone

end Command

end LoopHoist
