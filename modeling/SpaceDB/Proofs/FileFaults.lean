import SpaceDB.Storage.FileSystem

namespace SpaceDB.Proofs
open Lib Storage

variable {names : TempNames} {disk : Disk} {name : Path} {content : Bytes} {ε α : Type}
  {p : FileProg ε α} {plan : List (Option FileFault)}

/-- Calls that leave the content of a file alone, as long as it is there. -/
def Harmless (name : Path) : FileCall → Prop
  | .write file _ => file ≠ name
  | .createTemp start => ∀ suffix, start ++ suffix ≠ name
  | .rename source target => source ≠ name ∧ target ≠ name
  | .remove path => path ≠ name
  | .tryLock _ | .unlock _ | .openFile _ | .seekEnd _ | .readAt _ _ _ | .stat _ | .sync _
  | .close _ => True

/-- A harmless call leaves the file with its content. -/
theorem harmless_keeps (c : FileCall) (disk : Disk) (hc : Harmless name c)
    (hf : disk.files.find? name = some content) :
    (fileSystem names c disk).2.files.find? name = some content := by
  cases c with
  | tryLock path => simp only [fileSystem]; split <;> exact hf
  | unlock path => exact hf
  | openFile path =>
    simp only [fileSystem]
    split
    · exact hf
    · rename_i hnone
      rw [OrderedMap.find?_insert, if_neg, hf]
      rintro rfl
      simp [hf] at hnone
  | createTemp start =>
    simp only [fileSystem]
    rw [OrderedMap.find?_insert, if_neg (hc _).symm, hf]
  | seekEnd file => exact hf
  | write file data =>
    simp only [fileSystem]
    split
    · rw [OrderedMap.find?_insert, if_neg (Ne.symm hc), hf]
    · exact hf
  | readAt file offset size => exact hf
  | stat file => exact hf
  | sync file => exact hf
  | close file => exact hf
  | rename source target =>
    simp only [fileSystem]
    split
    · rw [OrderedMap.find?_insert, if_neg hc.2.symm, OrderedMap.find?_erase, if_neg hc.1.symm, hf]
    · exact hf
  | remove path =>
    simp only [fileSystem]
    split
    · rw [OrderedMap.find?_erase, if_neg (Ne.symm hc), hf]
    · exact hf

/-- A failed write to another file leaves this one alone as well. -/
theorem harmless_keeps_faulty (names : TempNames) (c : FileCall) (s : FaultyDisk)
    (hc : Harmless name c) (hf : s.disk.files.find? name = some content) :
    (faultyFiles names c s).2.disk.files.find? name = some content := by
  obtain ⟨disk, plan⟩ := s
  match plan with
  | [] => exact harmless_keeps c disk hc hf
  | none :: plan => exact harmless_keeps c disk hc hf
  | some f :: plan =>
    change (f.after c disk).files.find? name = some content
    cases c with
    | write file data =>
      simp only [FileFault.after]
      split
      · rw [OrderedMap.find?_insert, if_neg (Ne.symm hc), hf]
      · exact hf
    | _ => exact hf

def Calm (plan : List (Option FileFault)) : Prop := ∀ f ∈ plan, f = none

def Single : List (Option FileFault) → Prop
  | [] => True
  | none :: plan => Single plan
  | some _ :: plan => Calm plan

/-- Without faults the faulty file system is the plain one. -/
theorem calm_run (names : TempNames) (p : FileProg ε α) (disk : Disk) (hplan : Calm plan) :
    ∃ plan', p.run (faultyFiles names) ⟨disk, plan⟩ =
      ((p.run (fileSystem names) disk).1, ⟨(p.run (fileSystem names) disk).2, plan'⟩) := by
  induction p generalizing disk plan with
  | done a => exact ⟨plan, rfl⟩
  | fail e => exact ⟨plan, rfl⟩
  | call c next ih =>
    match plan with
    | [] => exact ih _ _ hplan
    | none :: plan => exact ih _ _ (fun f hf => hplan f (List.mem_cons_of_mem _ hf))
    | some f :: plan => cases hplan (some f) List.mem_cons_self

theorem calm_disk (names : TempNames) (p : FileProg ε α) (disk : Disk) (hplan : Calm plan) :
    (p.run (faultyFiles names) ⟨disk, plan⟩).2.disk = (p.run (fileSystem names) disk).2 := by
  obtain ⟨plan', hrun⟩ := calm_run names p disk hplan
  rw [hrun]

/-- A call works as ever or fails as planned. -/
theorem faulty_call (names : TempNames) (c : FileCall) (disk : Disk)
    (plan : List (Option FileFault)) :
    (∃ plan', (Single plan → Single plan') ∧ faultyFiles names c ⟨disk, plan⟩ =
      ((fileSystem names c disk).1, ⟨(fileSystem names c disk).2, plan'⟩)) ∨
    ∃ (f : FileFault) (plan' : _), (Single plan → Calm plan') ∧
      faultyFiles names c ⟨disk, plan⟩ = (f.answer c, ⟨f.after c disk, plan'⟩) := by
  match plan with
  | [] => exact .inl ⟨[], id, rfl⟩
  | none :: plan => exact .inl ⟨plan, id, rfl⟩
  | some f :: plan => exact .inr ⟨f, plan, id, rfl⟩

/-- When at most one call fails, no call fails after it. -/
theorem single_call (names : TempNames) (c : FileCall) (disk : Disk) (hplan : Single plan) :
    (∃ plan', Single plan' ∧ faultyFiles names c ⟨disk, plan⟩ =
      ((fileSystem names c disk).1, ⟨(fileSystem names c disk).2, plan'⟩)) ∨
    ∃ (f : FileFault) (plan' : _), Calm plan' ∧
      faultyFiles names c ⟨disk, plan⟩ = (f.answer c, ⟨f.after c disk, plan'⟩) := by
  rcases faulty_call names c disk plan with ⟨plan', hnext, heq⟩ | ⟨f, plan', hnext, heq⟩
  · exact .inl ⟨plan', hnext hplan, heq⟩
  · exact .inr ⟨f, plan', hnext hplan, heq⟩

/-- A program that ends well although it gives up at the first fault has not
met any. -/
theorem guarded_ok {P : FileCall → Prop} {a : α} {s : FaultyDisk} (hplan : Single plan)
    (hp : p.Guarded P (fun c r => ∃ f : FileFault, r = f.answer c))
    (hrun : p.run (faultyFiles names) ⟨disk, plan⟩ = (.ok a, s)) :
    p.run (fileSystem names) disk = (.ok a, s.disk) ∧ Single s.plan := by
  induction p generalizing disk plan with
  | done b =>
    cases hrun
    exact ⟨rfl, hplan⟩
  | fail e => cases hrun
  | call c next ih =>
    rw [Prog.run_call] at hrun
    rcases single_call names c disk hplan with ⟨plan', hplan', heq⟩ | ⟨f, plan', -, heq⟩
    · rw [heq] at hrun
      exact ih _ hplan' (hp.2.2 _) hrun
    · obtain ⟨e, he⟩ := hp.2.1 (f.answer c) ⟨f, rfl⟩
      rw [heq, he] at hrun
      cases hrun

end SpaceDB.Proofs
