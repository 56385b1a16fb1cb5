import Mathlib.Data.List.Nodup
import Quadratize.Proofs.Cli.Interleaving

/-!
# Converting the circuits of a directory

The command `convert` is one task for each circuit and a count of the failures.  A task reads its
circuit and writes next to it.  What it writes is named after the circuit, and the name of no
circuit ends like the names that are written, so the tasks keep apart: they may take turns in any
order.
-/

namespace Quadratize.Cli

open Text

/-! ## Tasks -/

section Tasks

variable {m : Type → Type} [Monad m] (host : Host m)

/-- The tasks of the command `convert`, one for each circuit.  There are none unless the values of
the primary inputs can be read. -/
def convertTasks (path : String) (flags : CompilerFlags) (inputs : Option (List String))
    (seed : Option Nat) : m (Except CommandError (List (m (Except CommandError Unit)))) := do
  let opts ← hostOptions host flags
  match inputs.mapM readValues with
  | .error e => return .error e
  | .ok values =>
    let paths ← circuitPaths host path
    return .ok (paths.map (convertFile host opts values seed))

/-- What the command says after its tasks. -/
def convertOutcome (total failed : Nat) : Except CommandError String :=
  if failed = 0 then .ok "" else .error (.failedCircuits failed total)

/-- The number of tasks that failed. -/
def failures (results : List (Except CommandError Unit)) : Nat :=
  results.countP (!·.toBool)

variable [LawfulMonad m]

theorem convertAll_eq (opts : Options) (values : Option (List Scalar)) (seed : Option Nat)
    (paths : List String) : convertAll host opts values seed paths =
      failures <$> (paths.map (convertFile host opts values seed)).mapM id := by
  induction paths with
  | nil => simp [convertAll, failures]
  | cons path rest ih =>
    rw [convertAll, ih]
    simp only [List.map_cons, List.mapM_cons, map_eq_pure_bind, bind_assoc, pure_bind, id_eq]
    refine bind_congr fun result ↦ bind_congr fun results ↦ ?_
    cases result <;> simp [failures, Except.toBool]

/-- The command performs its tasks one after the other. -/
theorem convert_eq_tasks (path : String) (flags : CompilerFlags) (inputs : Option (List String))
    (seed : Option Nat) : convert host path flags inputs seed = (do
      match ← convertTasks host path flags inputs seed with
      | .error e => return .error e
      | .ok tasks =>
        let results ← tasks.mapM id
        return convertOutcome tasks.length (failures results)) := by
  unfold convert convertTasks
  simp only [bind_assoc]
  refine bind_congr fun opts ↦ ?_
  cases inputs.mapM readValues with
  | error e => simp
  | ok values =>
    simp only [bind_assoc, pure_bind, convertAll_eq, map_eq_pure_bind, List.length_map]
    rfl

end Tasks

/-! ## Names of files -/

/-- The endings of the files that are written for a circuit. -/
def endings : List String :=
  ["_out", "_mat", "_wit"]

theorem length_of_mem_endings {s : String} (h : s ∈ endings) : s.toList.length = 4 := by
  revert s
  decide

theorem getLast?_of_mem_endings {s : String} (h : s ∈ endings) : s.toList.getLast? = some 't' := by
  revert s
  decide

/-- What is written for one circuit is not written for another one. -/
theorem append_ending_inj {path path' s s' : String} (hs : s ∈ endings) (hs' : s' ∈ endings)
    (h : path ++ s = path' ++ s') : path = path' ∧ s = s' := by
  have hlist := congrArg String.toList h
  rw [String.toList_append, String.toList_append] at hlist
  obtain ⟨hpath, hend⟩ := List.append_inj' hlist
    ((length_of_mem_endings hs).trans (length_of_mem_endings hs').symm)
  exact ⟨String.toList_inj.mp hpath, String.toList_inj.mp hend⟩

/-- A path that ends like the name of a circuit. -/
def IsCircuitPath (path : String) : Prop :=
  ".arith".toList <:+ path.toList

/-- The path of a file ends with its name. -/
theorem exists_inDirectory_eq (dir : String) :
    ∃ front, ∀ name, inDirectory dir name = front ++ name := by
  by_cases h : dir.endsWith "/" = true
  · exact ⟨dir, fun name ↦ if_pos h⟩
  · exact ⟨dir ++ "/", fun name ↦ if_neg h⟩

theorem inDirectory_injective (dir : String) : Function.Injective (inDirectory dir) := by
  obtain ⟨front, hfront⟩ := exists_inDirectory_eq dir
  intro name name' h
  have hlist := congrArg String.toList h
  rw [hfront, hfront, String.toList_append, String.toList_append] at hlist
  exact String.toList_inj.mp (List.append_cancel_left hlist)

theorem isCircuitPath_inDirectory (dir stem : String) :
    IsCircuitPath (inDirectory dir (stem ++ ".arith")) := by
  obtain ⟨front, hfront⟩ := exists_inDirectory_eq dir
  rw [IsCircuitPath, hfront, ← String.append_assoc, String.toList_append]
  exact List.suffix_append _ _

/-- What is written is no circuit. -/
theorem IsCircuitPath.ne_append {path path' s : String} (h : IsCircuitPath path)
    (hs : s ∈ endings) : path ≠ path' ++ s := by
  rintro rfl
  obtain ⟨init, hinit⟩ := h
  have hends := congrArg List.getLast? hinit
  rw [String.toList_append, List.getLast?_append, List.getLast?_append,
    getLast?_of_mem_endings hs] at hends
  cases hends

/-! ## One circuit -/

section

variable {w : Surroundings} {files : FileMap} {opts : Options} {values : List Scalar}
  {path q content : String}

/-- The result of a text, if it is a circuit that can be compiled and evaluated. -/
def resultOf? (opts : Options) (values : List Scalar) (text : String) :
    Option (Compiled × Witness) :=
  (Circuit.read text.toList).toOption.bind fun c ↦ (c.process opts values).toOption

/-- The result of the circuit at a path. -/
def resultAt? (opts : Options) (values : List Scalar) (files : FileMap) (path : String) :
    Option (Compiled × Witness) :=
  (files path).bind (resultOf? opts values)

/-- The artifacts of a result. -/
def artifactsOf (r : Compiled × Witness) : Artifacts :=
  ⟨String.ofList r.1.circuit.render, String.ofList r.1.system.render, String.ofList r.2.render⟩

/-- What is written to the file with the given ending. -/
def contentOf (r : Compiled × Witness) (ending : String) : String :=
  if ending = "_out" then String.ofList r.1.circuit.render
  else if ending = "_mat" then String.ofList r.1.system.render
  else String.ofList r.2.render

/-- The files to be written for the circuit at a path. -/
def filesAt (opts : Options) (values : List Scalar) (files : FileMap) (path : String) :
    List (String × String) :=
  (resultAt? opts values files path).elim [] fun r ↦ (artifactsOf r).files path

theorem trace_writeFiles (fs : List (String × String)) :
    (writeFiles Prog.host fs).trace w files = fs.map fun f ↦ .write f.1 f.2 := by
  induction fs with
  | nil => rfl
  | cons f rest ih => exact congrArg (Action.write f.1 f.2 :: ·) ih

theorem value_writeFiles (fs : List (String × String)) :
    (writeFiles Prog.host fs).value w files = .ok () := by
  induction fs with
  | nil => rfl
  | cons f rest ih => exact ih

/-- The circuit at a path. -/
def circuitAt (files : FileMap) (path : String) : Except CommandError Circuit :=
  match files path with
  | none => .error (.read path)
  | some text => (Circuit.read text.toList).mapError fun _ ↦ .parse path

theorem resultAt?_eq : resultAt? opts values files path =
    (circuitAt files path).toOption.bind fun c ↦ (c.process opts values).toOption := by
  unfold resultAt? circuitAt
  cases files path with
  | none => rfl
  | some text =>
    rw [Option.bind_some, resultOf?]
    dsimp only
    cases Circuit.read text.toList with
    | error e => rfl
    | ok c => rfl

theorem artifacts_eq (opts : Options) (values : List Scalar) (c : Circuit) :
    artifacts opts values c = (c.process opts values).map artifactsOf := by
  unfold artifacts
  cases c.process opts values with
  | error e => rfl
  | ok r => rfl

theorem readCircuit_spec (w : Surroundings) (files : FileMap) (path : String) :
    (readCircuit Prog.host path).trace w files = [.read path] ∧
      (readCircuit Prog.host path).value w files = circuitAt files path := by
  have hvalue : (Prog.host.read path).value w files = files path := rfl
  have htrace : (Prog.host.read path).trace w files = [.read path] := rfl
  unfold readCircuit circuitAt
  rw [Prog.trace_bind, Prog.value_bind, hvalue, htrace]
  cases files path with
  | none => exact ⟨rfl, rfl⟩
  | some text =>
    dsimp only
    cases Circuit.read text.toList with
    | error e => exact ⟨rfl, rfl⟩
    | ok c => exact ⟨rfl, rfl⟩

/-- While the files stand still, a task reads its circuit and writes the artifacts, and it succeeds
if there are any. -/
theorem convertFile_spec (w : Surroundings) (files : FileMap) (opts : Options)
    (values : List Scalar) (seed : Option Nat) (path : String) :
    (convertFile Prog.host opts (some values) seed path).trace w files =
        .read path :: (filesAt opts values files path).map (fun f ↦ .write f.1 f.2) ∧
      ((convertFile Prog.host opts (some values) seed path).value w files).toBool =
        (resultAt? opts values files path).isSome := by
  obtain ⟨htrace, hvalue⟩ := readCircuit_spec w files path
  rw [convertFile, Prog.trace_bind, Prog.value_bind, htrace, hvalue, filesAt, resultAt?_eq]
  cases circuitAt files path with
  | error e => exact ⟨rfl, rfl⟩
  | ok c =>
    have hsome : (Except.ok c : Except CommandError Circuit).toOption = some c := rfl
    dsimp only
    rw [pure_bind, artifacts_eq, hsome, Option.bind_some]
    cases c.process opts values with
    | error e => exact ⟨rfl, rfl⟩
    | ok r =>
      exact ⟨congrArg (Action.read path :: ·) (trace_writeFiles _),
        congrArg Except.toBool (value_writeFiles _)⟩

theorem files_artifactsOf (r : Compiled × Witness) (path : String) :
    (artifactsOf r).files path = endings.map fun s ↦ (path ++ s, contentOf r s) := by
  rfl

theorem mem_filesAt : (q, content) ∈ filesAt opts values files path ↔
    ∃ r, resultAt? opts values files path = some r ∧
      ∃ s ∈ endings, path ++ s = q ∧ contentOf r s = content := by
  unfold filesAt
  cases resultAt? opts values files path with
  | none => exact ⟨nofun, fun ⟨_, h, _⟩ ↦ nomatch h⟩
  | some r => simp only [Option.elim_some, files_artifactsOf, List.mem_map, Prod.mk.injEq,
      Option.some.injEq, exists_eq_left']

theorem length_filesAt_le (opts : Options) (values : List Scalar) (files : FileMap)
    (path : String) : (filesAt opts values files path).length ≤ 3 := by
  unfold filesAt
  cases resultAt? opts values files path with
  | none => exact Nat.zero_le 3
  | some r => exact Nat.le_refl _

/-! ## All circuits of a directory -/

/-- The files to be written for several circuits. -/
def filesOf (opts : Options) (values : List Scalar) (files : FileMap) (paths : List String) :
    FileMap :=
  fun q ↦ (paths.flatMap (filesAt opts values files)).lookup q

variable {paths : List String}

/-- No two circuits want different contents at one path. -/
theorem filesAt_functional {path' content' : String}
    (h : (q, content) ∈ filesAt opts values files path)
    (h' : (q, content') ∈ filesAt opts values files path') : content = content' := by
  obtain ⟨r, hr, s, hs, hq, rfl⟩ := mem_filesAt.mp h
  obtain ⟨r', hr', s', hs', hq', rfl⟩ := mem_filesAt.mp h'
  obtain ⟨rfl, rfl⟩ := append_ending_inj hs hs' (hq.trans hq'.symm)
  obtain rfl := Option.some.inj (hr.symm.trans hr')
  rfl

theorem filesOf_eq_some : filesOf opts values files paths q = some content ↔
    ∃ path ∈ paths, (q, content) ∈ filesAt opts values files path := by
  have hmem {c : String} (h : filesOf opts values files paths q = some c) :
      ∃ path ∈ paths, (q, c) ∈ filesAt opts values files path := by
    obtain ⟨l, m, hl, -⟩ := List.lookup_eq_some_iff.mp h
    refine List.mem_flatMap.mp ?_
    rw [hl]
    exact List.mem_append_right _ List.mem_cons_self
  refine ⟨hmem, fun ⟨path, hpath, hq⟩ ↦ ?_⟩
  cases hc : filesOf opts values files paths q with
  | none =>
    have hne := List.lookup_eq_none_iff.mp hc _ (List.mem_flatMap.mpr ⟨path, hpath, hq⟩)
    exact absurd rfl (bne_iff_ne.mp hne)
  | some c =>
    obtain ⟨path', -, hq'⟩ := hmem hc
    exact congrArg some (filesAt_functional hq' hq)

/-- Only paths that are named after a circuit with a result are written. -/
theorem filesOf_eq_none (h : ∀ path ∈ paths, resultAt? opts values files path ≠ none →
    ∀ s ∈ endings, path ++ s ≠ q) : filesOf opts values files paths q = none := by
  cases hc : filesOf opts values files paths q with
  | none => rfl
  | some c =>
    obtain ⟨path, hpath, hq⟩ := filesOf_eq_some.mp hc
    obtain ⟨r, hr, s, hs, he, -⟩ := mem_filesAt.mp hq
    exact absurd he (h path hpath (hr ▸ Option.some_ne_none r) s hs)

/-- The tasks of circuits keep apart. -/
theorem apart_convertFile (hpaths : ∀ path ∈ paths, IsCircuitPath path) (seed : Option Nat) :
    Apart w files (filesOf opts values files paths)
      (paths.map (convertFile Prog.host opts (some values) seed)) where
  keeps := by
    intro p hp a ha
    obtain ⟨path, hpath, rfl⟩ := List.mem_map.mp hp
    rw [(convertFile_spec w files opts values seed path).1] at ha
    rcases List.mem_cons.mp ha with rfl | ha
    · exact filesOf_eq_none fun _ _ _ _ hs he ↦ (hpaths path hpath).ne_append hs he.symm
    · obtain ⟨⟨q, content⟩, hq, rfl⟩ := List.mem_map.mp ha
      exact filesOf_eq_some.mpr ⟨path, hpath, hq⟩
  covers := by
    intro q content h
    obtain ⟨path, hpath, hq⟩ := filesOf_eq_some.mp h
    refine ⟨_, List.mem_map_of_mem hpath, ?_⟩
    rw [(convertFile_spec w files opts values seed path).1]
    exact List.mem_cons_of_mem _ (List.mem_map.mpr ⟨_, hq, rfl⟩)

theorem remaining_convertFile (opts : Options) (values : List Scalar) (seed : Option Nat)
    (paths : List String) :
    Pool.remaining w files (paths.map (convertFile Prog.host opts (some values) seed)) ≤
      4 * paths.length := by
  induction paths with
  | nil => exact Nat.le_refl _
  | cons path rest ih =>
    have hlength := length_filesAt_le opts values files path
    rw [List.map_cons, ← List.nil_append (_ :: _), Pool.remaining_append_cons,
      (convertFile_spec w files opts values seed path).1, List.nil_append, List.length_cons,
      List.length_map, List.length_cons]
    omega

/-- The number of circuits that fail. -/
def failuresOf (opts : Options) (values : List Scalar) (files : FileMap) (paths : List String) :
    Nat :=
  paths.countP fun path ↦ (resultAt? opts values files path).isNone

theorem failures_convertFile (seed : Option Nat) :
    failures ((paths.map (convertFile Prog.host opts (some values) seed)).map
      (·.value w files)) = failuresOf opts values files paths := by
  rw [failures, failuresOf, List.map_map, List.countP_map]
  refine List.countP_congr fun path _ ↦ ?_
  rw [Function.comp_apply, Function.comp_apply, (convertFile_spec w files opts values seed path).2]
  cases resultAt? opts values files path with
  | none => exact Iff.rfl
  | some r => exact Iff.rfl

/-- Tasks that take turns end after four steps each, with the files of all circuits written and
with the failures counted. -/
theorem run_convertFile (hpaths : ∀ path ∈ paths, IsCircuitPath path) {seed : Option Nat} {n : Nat}
    {s : Pool (Except CommandError Unit)}
    (h : Pool.Run w n ⟨paths.map (convertFile Prog.host opts (some values) seed), files⟩ s) :
    n ≤ 4 * paths.length ∧ ((∃ t, Pool.Step w s t) ∨
      s.files = overlay files (filesOf opts values files paths) ∧
      ∃ results, s.tasks = results.map .done ∧
        failures results = failuresOf opts values files paths) := by
  obtain ⟨hsteps, hend⟩ := h.ends (apart_convertFile hpaths seed)
  refine ⟨Nat.le_trans hsteps (remaining_convertFile opts values seed paths), ?_⟩
  rcases hend with hstep | ⟨hdone, hfiles⟩
  · exact .inl hstep
  · exact .inr ⟨hfiles, _, hdone, failures_convertFile seed⟩

end

/-! ## The command -/

/-- A circuit is named by a stem, which is not empty, and the ending of circuits. -/
theorem isCircuitName_iff {name : String} :
    isCircuitName name = true ↔ ∃ stem, stem ≠ "" ∧ name = stem ++ ".arith" := by
  have hends : name.endsWith ".arith" = true ↔ ".arith".toList <:+ name.toList := by
    rw [String.endsWith_eq_endsWith_toSlice, String.Slice.endsWith_string_iff,
      String.copy_toSlice]
  rw [isCircuitName, Bool.and_eq_true, hends, decide_eq_true_iff, ← String.length_toList]
  constructor
  · rintro ⟨hlength, stem, hstem⟩
    refine ⟨String.ofList stem, fun hempty ↦ ?_, ?_⟩
    · obtain rfl : stem = [] := by simpa using congrArg String.toList hempty
      rw [← hstem] at hlength
      exact absurd hlength (by decide)
    · rw [← String.toList_inj, String.toList_append, String.toList_ofList, hstem]
  · rintro ⟨stem, hstem, rfl⟩
    rw [String.toList_append, List.length_append]
    refine ⟨?_, List.suffix_append _ _⟩
    have hpos := List.length_pos_iff.mpr fun h ↦ hstem (String.toList_inj.mp h)
    exact Nat.add_lt_add_right hpos ".arith".toList.length

namespace Surroundings

/-- The options that the command takes from its flags and the environment. -/
def options (w : Surroundings) (flags : CompilerFlags) : Options :=
  compilerOptions flags (decide ("QESA_LEGACY_WIRE_ORDER" ∈ w.env))
    (decide ("QESA_NO_ZERO_PROP" ∈ w.env))

/-- The paths of the circuits of the directory. -/
def circuits (w : Surroundings) (files : FileMap) : List String :=
  (((w.names.filter fun n ↦ (files (inDirectory w.directory n)).isSome).filter
    isCircuitName).mergeSort (· ≤ ·)).map (inDirectory w.directory)

variable (w : Surroundings) (files : FileMap)

/-- The circuits are the files of the directory that are named like one. -/
theorem mem_circuits {path : String} : path ∈ w.circuits files ↔
    ∃ name ∈ w.names, (∃ stem, stem ≠ "" ∧ name = stem ++ ".arith") ∧
      (files (inDirectory w.directory name)).isSome = true ∧
      inDirectory w.directory name = path := by
  simp only [circuits, List.mem_map, (List.mergeSort_perm _ _).mem_iff, List.mem_filter,
    ← isCircuitName_iff]
  constructor
  · rintro ⟨name, ⟨⟨hname, hfile⟩, hcircuit⟩, hpath⟩
    exact ⟨name, hname, hcircuit, hfile, hpath⟩
  · rintro ⟨name, hname, hcircuit, hfile, hpath⟩
    exact ⟨name, ⟨⟨hname, hfile⟩, hcircuit⟩, hpath⟩

theorem isCircuitPath_of_mem_circuits {path : String} (h : path ∈ w.circuits files) :
    IsCircuitPath path := by
  obtain ⟨_, -, ⟨stem, -, rfl⟩, -, rfl⟩ := (w.mem_circuits files).mp h
  exact isCircuitPath_inDirectory _ stem

theorem nodup_circuits : (w.circuits files).Nodup := by
  have hnodup := (w.nodup.filter fun n ↦ (files (inDirectory w.directory n)).isSome).filter
    isCircuitName
  rw [circuits, List.nodup_map_iff (inDirectory_injective _)]
  exact (List.mergeSort_perm _ _).nodup_iff.mpr hnodup

end Surroundings

section

variable {w : Surroundings} {files : FileMap} {flags : CompilerFlags} {inputs : List String}
  {seed : Option Nat}

theorem mapM_some_readValues : (some inputs).mapM readValues = (readValues inputs).map some := by
  cases h : readValues inputs with
  | error e => simp [h, Except.map]
  | ok values => simp [h, Except.map]

theorem exec_convertTasks :
    (convertTasks Prog.host w.directory flags (some inputs) seed).exec w files =
      ((readValues inputs).map fun values ↦ (w.circuits files).map
        (convertFile Prog.host (w.options flags) (some values) seed), files) := by
  have hoptions : (hostOptions Prog.host flags).exec w files = (w.options flags, files) := rfl
  have hpaths : (circuitPaths Prog.host w.directory).exec w files = (w.circuits files, files) := by
    have hdir : (Prog.host.isDir w.directory).exec w files = (true, files) :=
      Prod.ext (decide_eq_true rfl) rfl
    have hnames : (Prog.host.list w.directory).exec w files =
        (w.names.filter fun n ↦ (files (inDirectory w.directory n)).isSome, files) :=
      Prod.ext (if_pos rfl) rfl
    rw [circuitPaths, Prog.exec_bind, hdir]
    dsimp only
    rw [if_pos rfl, Prog.exec_bind, hnames]
    rfl
  rw [convertTasks, Prog.exec_bind, hoptions, mapM_some_readValues]
  cases readValues inputs with
  | error e => rfl
  | ok values =>
    dsimp only [Except.map]
    rw [Prog.exec_bind, hpaths]
    rfl

theorem readValues_eq_mapM : readValues inputs = inputs.mapM fun v ↦
    (Scalar.read .dec (trim v.toList)).mapError fun _ ↦ .inputValue v := by
  induction inputs with
  | nil => rfl
  | cons v rest ih =>
    rw [readValues, List.mapM_cons, ih]
    cases Scalar.read .dec (trim v.toList) with
    | error fault => rfl
    | ok a => rfl

/-- The values are those of the inputs, in their order. -/
theorem readValues_eq_ok {values : List Scalar} : readValues inputs = .ok values ↔
    List.Forall₂ (fun v a ↦ Scalar.read .dec (trim v.toList) = .ok a) inputs values := by
  simp only [readValues_eq_mapM, mapM_eq_ok, mapError_eq_ok]

/-- The first value that cannot be read is reported. -/
theorem readValues_eq_error {e : CommandError} : readValues inputs = .error e ↔
    ∃ before v after fault, inputs = before ++ v :: after ∧
      (∀ u ∈ before, ∃ a, Scalar.read .dec (trim u.toList) = .ok a) ∧
      Scalar.read .dec (trim v.toList) = .error fault ∧ e = .inputValue v := by
  simp only [readValues_eq_mapM, mapM_eq_error, mapError_eq_ok, mapError_eq_error]
  constructor
  · rintro ⟨before, v, after, hsplit, hbefore, fault, hfault, he⟩
    exact ⟨before, v, after, fault, hsplit, hbefore, hfault, he.symm⟩
  · rintro ⟨before, v, after, fault, hsplit, hbefore, hfault, he⟩
    exact ⟨before, v, after, hsplit, hbefore, fault, hfault, he.symm⟩

end

/-- What the conversion of circuits leaves. -/
structure Converted (opts : Options) (values : List Scalar) (circuits : List String)
    (files after : FileMap) : Prop where
  /-- A circuit that can be read, compiled and evaluated has its three files. -/
  written : ∀ path ∈ circuits, ∀ text c k e, files path = some text →
    Circuit.read text.toList = .ok c → c.process opts values = .ok (k, e) →
      after (path ++ "_out") = some (String.ofList k.circuit.render) ∧
      after (path ++ "_mat") = some (String.ofList k.system.render) ∧
      after (path ++ "_wit") = some (String.ofList e.render)
  /-- A circuit that fails creates and changes nothing. -/
  failed : ∀ path ∈ circuits, resultAt? opts values files path = none →
    ∀ s ∈ endings, after (path ++ s) = files (path ++ s)
  /-- Nothing else changes. -/
  other : ∀ q, (∀ path ∈ circuits, ∀ s ∈ endings, path ++ s ≠ q) → after q = files q

theorem converted_overlay (opts : Options) (values : List Scalar) (circuits : List String)
    (files : FileMap) : Converted opts values circuits files
      (overlay files (filesOf opts values files circuits)) where
  written := by
    intro path hpath text c k e htext hread hprocess
    have hresult : resultAt? opts values files path = some (k, e) := by
      rw [resultAt?, htext, Option.bind_some, resultOf?, hread]
      exact congrArg Except.toOption hprocess
    have hafter {s : String} (hs : s ∈ endings) :
        overlay files (filesOf opts values files circuits) (path ++ s) =
          some (contentOf (k, e) s) := by
      have hmem := mem_filesAt.mpr ⟨(k, e), hresult, s, hs, rfl, rfl⟩
      exact overlay_of_eq_some (filesOf_eq_some.mpr ⟨path, hpath, hmem⟩)
    exact ⟨hafter (s := "_out") (by decide), hafter (s := "_mat") (by decide),
      hafter (s := "_wit") (by decide)⟩
  failed := by
    intro path hpath hnone s hs
    refine overlay_of_eq_none (filesOf_eq_none fun path' _ hsome s' hs' he ↦ ?_)
    obtain ⟨rfl, -⟩ := append_ending_inj hs' hs he
    exact hsome hnone
  other := by
    intro q hq
    exact overlay_of_eq_none (filesOf_eq_none fun path hpath _ s hs ↦ hq path hpath s hs)

/-- The command `convert` on a directory.  It fails with nothing written if a value cannot be read,
and it names the first such value.  Otherwise there is a task for each file of the directory that is
named like a circuit.  The tasks end, in whatever order they take their turns, with the same files
and the same number of failures as if they were performed one after the other. -/
theorem convert_interleaved (w : Surroundings) (flags : CompilerFlags) (inputs : List String)
    (seed : Option Nat) (files : FileMap) :
    match readValues inputs with
    | .error e =>
      (∃ before v after fault, inputs = before ++ v :: after ∧
        (∀ u ∈ before, ∃ a, Scalar.read .dec (trim u.toList) = .ok a) ∧
        Scalar.read .dec (trim v.toList) = .error fault ∧ e = .inputValue v) ∧
      (convertTasks Prog.host w.directory flags (some inputs) seed).exec w files =
        (.error e, files) ∧
      (convert Prog.host w.directory flags (some inputs) seed).exec w files = (.error e, files)
    | .ok values =>
      List.Forall₂ (fun v a ↦ Scalar.read .dec (trim v.toList) = .ok a) inputs values ∧
      (∀ path, path ∈ w.circuits files ↔
        ∃ name ∈ w.names, (∃ stem, stem ≠ "" ∧ name = stem ++ ".arith") ∧
          (files (inDirectory w.directory name)).isSome = true ∧
          inDirectory w.directory name = path) ∧
      ∃ tasks after,
        (convertTasks Prog.host w.directory flags (some inputs) seed).exec w files =
          (.ok tasks, files) ∧
        (w.circuits files).Nodup ∧ tasks.length = (w.circuits files).length ∧
        (∀ n s, Pool.Run w n ⟨tasks, files⟩ s → n ≤ 4 * tasks.length ∧
          ((∃ t, Pool.Step w s t) ∨ s.files = after ∧ ∃ results, s.tasks = results.map .done ∧
            failures results = failuresOf (w.options flags) values files (w.circuits files))) ∧
        (convert Prog.host w.directory flags (some inputs) seed).exec w files =
          (convertOutcome tasks.length
            (failuresOf (w.options flags) values files (w.circuits files)), after) ∧
        Converted (w.options flags) values (w.circuits files) files after := by
  have htasks : (convertTasks Prog.host w.directory flags (some inputs) seed).exec w files = _ :=
    exec_convertTasks
  rw [convert_eq_tasks, Prog.exec_bind, htasks]
  cases hvalues : readValues inputs with
  | error e => exact ⟨readValues_eq_error.mp hvalues, rfl, rfl⟩
  | ok values =>
    have hpaths : ∀ path ∈ w.circuits files, IsCircuitPath path :=
      fun _ ↦ w.isCircuitPath_of_mem_circuits files
    refine ⟨readValues_eq_ok.mp hvalues, fun _ ↦ w.mem_circuits files, _, _, rfl,
      w.nodup_circuits files, List.length_map _, fun n s hrun ↦ ?_, ?_, converted_overlay _ _ _ _⟩
    · rw [List.length_map]
      exact run_convertFile hpaths hrun
    · dsimp only [Except.map]
      rw [Prog.exec_bind, Pool.exec_mapM (apart_convertFile hpaths seed)]
      dsimp only
      rw [failures_convertFile]
      rfl

/-! ## A directory with a torn circuit -/

/-- A circuit that adds its two inputs. -/
def sumText : String :=
  "input 0 # one-input\ninput 1\nadd in 2 <0 1> out 1 <2>\noutput 2\n"

/-- The circuit that it is compiled to. -/
def sumOut : String :=
  "total 3\n" ++ "input 0                                  # one-input\n" ++ "input 1\n" ++
    "quadratic in 2 <0 1> out 1 <2>           # (_0_ + _1_) * _0_\n" ++ "output 2\n"

/-- Its constraint. -/
def sumMat : String :=
  "3 # num variables/wires\n" ++ "# matrix 1\n" ++ "0:-1;2:1\n" ++ "0:1,1:1;0:1\n"

/-- Four files, of which two are named like circuits. -/
def desk : Surroundings where
  env := []
  directory := "desk"
  names := ["torn.arith", ".arith", "sum.arith", "sum.txt"]
  nodup := by decide

/-- The text of one of the two circuits ends within a gate. -/
def deskFiles (path : String) : Option String :=
  [("desk/torn.arith", "input 0\nadd in 2 <0"), ("desk/.arith", sumText),
    ("desk/sum.arith", sumText), ("desk/sum.txt", sumText)].lookup path

theorem circuits_desk :
    (desk.circuits deskFiles).Perm ["desk/torn.arith", "desk/sum.arith"] := by
  have hnames : (desk.names.filter fun n ↦
      (deskFiles (inDirectory desk.directory n)).isSome).filter isCircuitName =
        ["torn.arith", "sum.arith"] := by decide +kernel
  have hpaths : ["torn.arith", "sum.arith"].map (inDirectory desk.directory) =
      ["desk/torn.arith", "desk/sum.arith"] := by decide +kernel
  rw [Surroundings.circuits, hnames, ← hpaths]
  exact (List.mergeSort_perm _ _).map _

/-- Three files are written for the sum, and none for the rest.  A value that cannot be read stops
the command before the first circuit. -/
theorem convert_interleaved_desk :
    (∃ tasks after,
      (convertTasks Prog.host desk.directory {} (some ["1", " 3 "]) none).exec desk deskFiles =
        (.ok tasks, deskFiles) ∧
      tasks.length = 2 ∧
      (∀ n s, Pool.Run desk n ⟨tasks, deskFiles⟩ s →
        n ≤ 8 ∧ ((∃ t, Pool.Step desk s t) ∨ s.files = after)) ∧
      (convert Prog.host desk.directory {} (some ["1", " 3 "]) none).exec desk deskFiles =
        (.error (.failedCircuits 1 2), after) ∧
      (after ("desk/sum.arith" ++ "_out") = some sumOut ∧
        after ("desk/sum.arith" ++ "_mat") = some sumMat ∧
        after ("desk/sum.arith" ++ "_wit") = some "1,3,4\n") ∧
      ∀ path ∈ ["desk/torn.arith", "desk/.arith", "desk/sum.txt"], ∀ s ∈ endings,
        after (path ++ s) = none) ∧
    (convert Prog.host desk.directory {} (some ["1", "three", "4"]) none).exec desk deskFiles =
      (.error (.inputValue "three"), deskFiles) := by
  have hvalues : readValues ["1", " 3 "] = .ok [1, .reduce 3] := by decide +kernel
  have herror : readValues ["1", "three", "4"] = .error (.inputValue "three") := by decide +kernel
  have hdone := convert_interleaved desk {} ["1", " 3 "] none deskFiles
  have hstopped := convert_interleaved desk {} ["1", "three", "4"] none deskFiles
  simp only [hvalues] at hdone
  simp only [herror] at hstopped
  obtain ⟨-, -, tasks, after, htasks, -, hlength, hruns, hconvert, hafter⟩ := hdone
  rw [circuits_desk.length_eq] at hlength
  refine ⟨⟨tasks, after, htasks, hlength, fun n s hrun ↦ ?_, ?_, ?_, ?_⟩, hstopped.2.2⟩
  · obtain ⟨hsteps, hend⟩ := hruns n s hrun
    rw [hlength] at hsteps
    exact ⟨hsteps, hend.imp_right And.left⟩
  · have hfailed : failuresOf (desk.options {}) [1, .reduce 3] deskFiles
        ["desk/torn.arith", "desk/sum.arith"] = 1 := by decide +kernel
    rw [hconvert, hlength, failuresOf, circuits_desk.countP_eq, ← failuresOf, hfailed]
    rfl
  · have hsum : "desk/sum.arith" ∈ desk.circuits deskFiles :=
      circuits_desk.mem_iff.mpr (by decide)
    obtain ⟨c, hread, hresult⟩ := exists_ok_of_any (x := Circuit.read sumText.toList)
      (P := fun c ↦ (c.process (desk.options {}) [1, .reduce 3]).toOption.any fun r ↦
        String.ofList r.1.circuit.render = sumOut ∧ String.ofList r.1.system.render = sumMat ∧
          String.ofList r.2.render = "1,3,4\n") (by decide +kernel)
    obtain ⟨⟨k, e⟩, hprocess, htexts⟩ := exists_ok_of_any hresult
    obtain ⟨hout, hmat, hwit⟩ := of_decide_eq_true htexts
    rw [← hout, ← hmat, ← hwit]
    exact hafter.written _ hsum sumText c k e rfl hread hprocess
  · intro path hpath s hs
    have hnew : ∀ path ∈ ["desk/torn.arith", "desk/.arith", "desk/sum.txt"], ∀ s ∈ endings,
        deskFiles (path ++ s) = none := by decide +kernel
    rw [← hnew path hpath s hs]
    by_cases htorn : path = "desk/torn.arith"
    · subst htorn
      have hnone : (resultAt? (desk.options {}) [1, .reduce 3] deskFiles
          "desk/torn.arith").isNone = true := by decide +kernel
      exact hafter.failed _ (circuits_desk.mem_iff.mpr List.mem_cons_self)
        (Option.isNone_iff_eq_none.mp hnone) s hs
    · have hother : ∀ path ∈ ["desk/torn.arith", "desk/.arith", "desk/sum.txt"],
          path ∈ ["desk/torn.arith", "desk/sum.arith"] → path = "desk/torn.arith" := by decide
      refine hafter.other _ fun path' hpath' s' hs' he ↦ ?_
      obtain ⟨rfl, -⟩ := append_ending_inj hs' hs he
      exact htorn (hother _ hpath (circuits_desk.mem_iff.mp hpath'))

end Quadratize.Cli
