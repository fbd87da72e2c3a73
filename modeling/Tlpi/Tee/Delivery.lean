import Tlpi.Tee.Model

/-!
# What `tee` delivers

`main_delivers`: of every run that gets past the opening of the files, each output holds
its initial contents and a prefix of the input, and two of these prefixes differ by at
most one buffer.  A run that ends with `EXIT_SUCCESS` has delivered the whole input to
every output.

The files are different ones when no two names lead to one inode.  At a loop head every
descriptor stands at the end of its file (`AtEnd`), with or without `O_APPEND`, and each
file has got the input up to the offset of standard input.  Within a pass, the outputs
that have been written are ahead of the others by the chunk of this pass.
-/

namespace Tlpi.Tee

open Tlpi.Lib

/-- Where the program writes to. -/
inductive Output
  | stdout
  | file (name : String)
  deriving DecidableEq, Repr

def outputs (names : List String) : List Output := .stdout :: names.map .file

/-- What is in an output before the first byte is copied. -/
def initial (append : Bool) (fs : Fs) : Output → Bytes
  | .stdout => []
  | .file name => if append then (fs.contents name).getD [] else []

/-- What is in an output at the end. -/
def Outcome.contents (r : Outcome) : Output → Option Bytes
  | .stdout => some r.out
  | .file name => r.fs.contents name

/-- The names lead to different files. -/
def Distinct (fs : Fs) (names : List String) : Prop :=
  names.Pairwise fun p q => p ≠ q ∧ ∀ i, fs.names p = some i → fs.names q ≠ some i

/-! ### Opening the files -/

section Open

variable {append : Bool} {fs fs' : Fs} {name p : String} {i : Nat}

theorem openFile_names_self : (openFile append fs name).1.names name =
    some (openFile append fs name).2 := by
  cases append
  · exact fs.creat_names_self name
  · exact fs.touch_names_self name

theorem openFile_names_of_ne (h : p ≠ name) :
    (openFile append fs name).1.names p = fs.names p := by
  cases append
  · exact fs.creat_names_of_ne h
  · exact fs.touch_names_of_ne h

theorem openFile_data_self : (openFile append fs name).1.data (openFile append fs name).2 =
    initial append fs (.file name) := by
  cases append
  · exact fs.creat_data_self name
  · exact fs.touch_data_self name

theorem openFile_data_of_ne (h : i ≠ (openFile append fs name).2) :
    (openFile append fs name).1.data i = fs.data i := by
  cases append
  · exact fs.creat_data_of_ne name h
  · exact fs.touch_data_of_ne name h

theorem ne_openFile (hp : fs.names p = some i) (hname : fs.names name ≠ some i) :
    i ≠ (openFile append fs name).2 := by
  cases append
  · exact fs.ne_creat hp hname
  · exact fs.ne_touch hp hname

/-- The other file keeps its contents. -/
theorem initial_openFile (hne : p ≠ name) (hp : ∀ i, fs.names name = some i → fs.names p ≠ some i) :
    initial append (openFile append fs name).1 (.file p) = initial append fs (.file p) := by
  suffices h : (openFile append fs name).1.contents p = fs.contents p by rw [initial, h, initial]
  rw [Fs.contents, Fs.contents, openFile_names_of_ne hne]
  cases hi : fs.names p with
  | none => rfl
  | some i =>
    have hino := @ne_openFile append fs name p i hi fun h => hp i h hi
    simp only [Option.map_some, openFile_data_of_ne hino]

/-- What opening the first of several files leads to. -/
theorem openFiles_cons_ok {opens : Nat → Bool} {names : List String} {k : Nat} {files : List File}
    (hopen : openFiles append opens k fs (name :: names) = (fs', .ok files)) :
    ∃ rest, openFiles append opens (k + 1) (openFile append fs name).1 names = (fs', .ok rest) ∧
      files = ⟨name, (openFile append fs name).2, 0⟩ :: rest := by
  rw [openFiles] at hopen
  split at hopen
  · cases hopen
  · cases hrest : openFiles append opens (k + 1) (openFile append fs name).1 names with
    | mk fs'' r =>
      simp only [hrest] at hopen
      cases r with
      | error e => cases hopen
      | ok rest =>
        cases hopen
        exact ⟨rest, rfl, rfl⟩

/-- Opening files leaves a file alone that none of the names leads to. -/
theorem openFiles_frame {opens : Nat → Bool} {names : List String} {k : Nat} {files : List File}
    (hopen : openFiles append opens k fs names = (fs', .ok files)) (hmem : p ∉ names)
    (hp : fs.names p = some i) (hnames : ∀ q ∈ names, fs.names q ≠ some i) :
    fs'.names p = some i ∧ fs'.data i = fs.data i ∧ i ∉ files.map File.ino := by
  induction names generalizing k fs files with
  | nil =>
    cases hopen
    exact ⟨hp, rfl, List.not_mem_nil⟩
  | cons name names ih =>
    rw [List.mem_cons, not_or] at hmem
    have hino : i ≠ (openFile append fs name).2 :=
      ne_openFile hp (hnames name List.mem_cons_self)
    obtain ⟨rest, hrest, rfl⟩ := openFiles_cons_ok hopen
    have hp' : (openFile append fs name).1.names p = some i := by
      rw [openFile_names_of_ne hmem.1, hp]
    obtain ⟨h1, h2, h3⟩ := ih hrest hmem.2 hp' fun q hq hqi => by
      rcases eq_or_ne q name with rfl | hne
      · rw [openFile_names_self, Option.some.injEq] at hqi
        exact hino hqi.symm
      · rw [openFile_names_of_ne hne] at hqi
        exact hnames q (List.mem_cons_of_mem _ hq) hqi
    refine ⟨h1, by rw [h2, openFile_data_of_ne hino], ?_⟩
    rw [List.map_cons, List.mem_cons, not_or]
    exact ⟨hino, h3⟩

/-- The files that were opened: one for each name, each with its initial contents. -/
structure Opened (append : Bool) (fs fs' : Fs) (names : List String) (files : List File) :
    Prop where
  named : files.map File.name = names
  nodup : (files.map File.ino).Nodup
  entry : ∀ f ∈ files, fs'.names f.name = some f.ino ∧ f.off = 0 ∧
    fs'.data f.ino = initial append fs (.file f.name)

theorem opened_of_openFiles {opens : Nat → Bool} {names : List String} {k : Nat}
    {files : List File} (hdistinct : Distinct fs names)
    (hopen : openFiles append opens k fs names = (fs', .ok files)) :
    Opened append fs fs' names files := by
  induction names generalizing k fs files with
  | nil =>
    cases hopen
    exact ⟨rfl, List.nodup_nil, nofun⟩
  | cons name names ih =>
    obtain ⟨hhead, htail⟩ := List.pairwise_cons.mp hdistinct
    obtain ⟨rest, hrest, rfl⟩ := openFiles_cons_ok hopen
    have hnames : ∀ q ∈ names, (openFile append fs name).1.names q = fs.names q :=
      fun q hq => openFile_names_of_ne (hhead q hq).1.symm
    have hdistinct' : Distinct (openFile append fs name).1 names := by
      refine htail.imp_of_mem fun {a b} ha hb hab => ?_
      rw [hnames a ha, hnames b hb]
      exact hab
    obtain ⟨h1, h2, h3⟩ := openFiles_frame hrest
      (fun h => (hhead name h).1 rfl) openFile_names_self fun q hq hqi => by
        rw [hnames q hq] at hqi
        exact ne_openFile hqi (fun h => (hhead q hq).2 _ h hqi) rfl
    have hspec := ih hdistinct' hrest
    refine ⟨by rw [List.map_cons, hspec.named], ?_, fun f hf => ?_⟩
    · rw [List.map_cons, List.nodup_cons]
      exact ⟨h3, hspec.nodup⟩
    · rcases List.mem_cons.mp hf with rfl | hf
      · exact ⟨h1, rfl, by rw [h2, openFile_data_self]⟩
      · obtain ⟨hname, hoff, hdata⟩ := hspec.entry f hf
        have hmem : f.name ∈ names := by
          rw [← hspec.named]
          exact List.mem_map_of_mem hf
        obtain ⟨hne, hino⟩ := hhead f.name hmem
        exact ⟨hname, hoff, by rw [hdata, initial_openFile hne.symm hino]⟩

end Open

/-! ### Writing a chunk to the files -/

/-- The next write goes to the end of the file. -/
def AtEnd (append : Bool) (fs : Fs) (f : File) : Prop :=
  f.position append fs = (fs.data f.ino).length

section Write

variable {append : Bool} {fs : Fs} {f : File} {b : Bytes}

theorem write_of_atEnd (h : AtEnd append fs f) :
    (f.write append fs b).1 = fs.setData f.ino (fs.data f.ino ++ b) := by
  rw [File.write, h]
  by_cases hb : b = []
  · rw [hb, pwrite, if_pos rfl, List.append_nil]
  · rw [pwrite_of_length_le (Nat.le_refl _) hb, Nat.sub_self, List.replicate_zero, List.append_nil]

theorem atEnd_write (h : AtEnd append fs f) :
    AtEnd append (f.write append fs b).1 (f.write append fs b).2 := by
  have hfs := @write_of_atEnd append fs f b h
  show File.position append _ _ = _
  rw [File.position]
  split
  · rfl
  · rw [hfs, File.write, h]
    simp only [Fs.setData_data_self, List.length_append]

theorem atEnd_of_data_eq {fs' : Fs} (hdata : fs'.data f.ino = fs.data f.ino)
    (h : AtEnd append fs f) : AtEnd append fs' f := by
  rw [AtEnd, File.position, hdata]
  exact h

/-- What the inner loop does: every file gets a piece of the chunk, and all of it when
the loop comes to its end. -/
structure Written (append : Bool) (buf : Bytes) (fs fs' : Fs) (files files' : List File)
    (e : Option Failure) : Prop where
  names : fs'.names = fs.names
  inos : files'.map File.ino = files.map File.ino
  frame : ∀ i, i ∉ files.map File.ino → fs'.data i = fs.data i
  part : ∀ i, ∃ w, fs'.data i = fs.data i ++ buf.take w
  whole : e = none → ∀ i ∈ files.map File.ino, fs'.data i = fs.data i ++ buf
  atEnd : e = none → ∀ f ∈ files', AtEnd append fs' f

/-- No file but the first has been written. -/
theorem written_of_error {files : List File} {buf : Bytes} {e : Failure} {f' : File} {w : Nat}
    (hino : f'.ino = f.ino) :
    Written append buf fs (fs.setData f.ino (fs.data f.ino ++ buf.take w)) (f :: files)
      (f' :: files) (some e) where
  names := rfl
  inos := by rw [List.map_cons, List.map_cons, hino]
  frame i hi := by
    rw [List.map_cons, List.mem_cons, not_or] at hi
    exact Fs.setData_data_of_ne fs hi.1 _
  part i := by
    by_cases h : i = f.ino
    · exact ⟨w, by rw [h, Fs.setData_data_self]⟩
    · exact ⟨0, by rw [Fs.setData_data_of_ne fs h, List.take_zero, List.append_nil]⟩
  whole := nofun
  atEnd := nofun

/-- The first file has been written, and then the others. -/
theorem written_cons {files files' : List File} {buf : Bytes} {e : Option Failure} {fs' : Fs}
    (hhead : AtEnd append fs f) (hmem : f.ino ∉ files.map File.ino)
    (h : Written append buf (f.write append fs buf).1 fs' files files' e) :
    Written append buf fs fs' (f :: files) ((f.write append fs buf).2 :: files') e := by
  have hfs := @write_of_atEnd append fs f buf hhead
  have hself : fs'.data f.ino = fs.data f.ino ++ buf := by
    rw [h.frame _ hmem, hfs, Fs.setData_data_self]
  have hother : ∀ i, i ≠ f.ino → (f.write append fs buf).1.data i = fs.data i := by
    intro i hi
    rw [hfs, Fs.setData_data_of_ne fs hi]
  refine ⟨by rw [h.names]; rfl, ?_, ?_, ?_, ?_, ?_⟩
  · rw [List.map_cons, List.map_cons, h.inos]
    rfl
  · intro i hi
    rw [List.map_cons, List.mem_cons, not_or] at hi
    rw [h.frame i hi.2, hother i hi.1]
  · intro i
    by_cases hi : i = f.ino
    · exact ⟨buf.length, by rw [hi, hself, List.take_length]⟩
    · rw [← hother i hi]
      exact h.part i
  · intro he i hi
    by_cases heq : i = f.ino
    · rw [heq, hself]
    · rw [← hother i heq]
      exact h.whole he i ((List.mem_cons.mp hi).resolve_left heq)
  · intro he g hg
    rcases List.mem_cons.mp hg with rfl | hg
    · exact atEnd_of_data_eq (h.frame _ hmem) (atEnd_write hhead)
    · exact h.atEnd he g hg

theorem written_of_writeFiles {writes : Nat → Option Nat} {buf : Bytes} {k : Nat} {fs' : Fs}
    {files files' : List File} {e : Option Failure} (hnodup : (files.map File.ino).Nodup)
    (hend : ∀ f ∈ files, AtEnd append fs f)
    (hwrite : writeFiles append writes buf k fs files = (fs', files', e)) :
    Written append buf fs fs' files files' e := by
  induction files generalizing k fs files' with
  | nil =>
    cases hwrite
    exact ⟨rfl, rfl, fun _ _ => rfl, fun _ => ⟨0, by rw [List.take_zero, List.append_nil]⟩,
      fun _ => nofun, fun _ => nofun⟩
  | cons f files ih =>
    rw [List.map_cons, List.nodup_cons] at hnodup
    have hhead := hend f List.mem_cons_self
    rw [writeFiles] at hwrite
    cases hw : writes k with
    | none =>
      have hnone : fs.setData f.ino (fs.data f.ino ++ buf.take 0) = fs := by
        rw [List.take_zero, List.append_nil, Fs.setData_data]
      have herror := @written_of_error append fs f files buf (.writing f.name) f 0 rfl
      rw [hw] at hwrite
      rw [hnone] at herror
      cases hwrite
      exact herror
    | some w =>
      simp only [hw] at hwrite
      by_cases hall : (buf.take w).length = buf.length
      · rw [if_neg (not_not.mpr hall)] at hwrite
        have htake : buf.take w = buf := by
          apply List.take_of_length_le
          rw [List.length_take] at hall
          omega
        rw [htake] at hwrite
        have hend' : ∀ g ∈ files, AtEnd append (f.write append fs buf).1 g := by
          intro g hg
          have hne : g.ino ≠ f.ino := fun h => hnodup.1 (h ▸ List.mem_map_of_mem hg)
          refine atEnd_of_data_eq ?_ (hend g (List.mem_cons_of_mem _ hg))
          rw [write_of_atEnd hhead, Fs.setData_data_of_ne fs hne]
        cases hrest : writeFiles append writes buf (k + 1) (f.write append fs buf).1 files with
        | mk fs'' r =>
          simp only [hrest] at hwrite
          cases hwrite
          exact written_cons hhead hnodup.1 (ih hnodup.2 hend' hrest)
      · rw [if_pos hall] at hwrite
        cases hwrite
        rw [write_of_atEnd hhead]
        exact written_of_error rfl

end Write

/-! ### The loop -/

/-- A prefix of the input that goes beyond `off` by at most one buffer. -/
def Near (input : Bytes) (off : Nat) (d : Bytes) : Prop :=
  d <+: input ∧ off ≤ d.length ∧ d.length ≤ off + BUFSIZ

/-- What holds at a loop head, for a loop that started with `start` and files open on
`inos`. -/
structure Inv (append : Bool) (input : Bytes) (start : Fs) (inos : List Nat) (s : State) :
    Prop where
  names : s.fs.names = start.names
  files : s.files.map File.ino = inos
  le : s.inOff ≤ input.length
  out : s.out = input.take s.inOff
  data : ∀ i ∈ inos, s.fs.data i = start.data i ++ input.take s.inOff
  atEnd : ∀ f ∈ s.files, AtEnd append s.fs f

/-- What holds wherever the run ends. -/
structure Ending (input : Bytes) (start : Fs) (inos : List Nat) (s : State) : Prop where
  names : s.fs.names = start.names
  near : ∃ off, Near input off s.out ∧
    ∀ i ∈ inos, ∃ d, Near input off d ∧ s.fs.data i = start.data i ++ d

section Loop

variable {append : Bool} {input : Bytes} {start : Fs} {inos : List Nat} {s s' : State}

theorem near_take {off : Nat} (h : off ≤ input.length) : Near input off (input.take off) := by
  refine ⟨List.take_prefix .., ?_⟩
  rw [List.length_take, Nat.min_eq_left h]
  exact ⟨Nat.le_refl _, Nat.le_add_right ..⟩

/-- A piece of the next chunk has been written. -/
theorem near_take_append {off k w : Nat} (h : off ≤ input.length) :
    Near input off (input.take off ++ (readAt input off BUFSIZ k).take w) := by
  have hchunk := @length_readAt_le input off BUFSIZ k
  have hpre : input.take off ++ (readAt input off BUFSIZ k).take w <+:
      input.take (off + (readAt input off BUFSIZ k).length) := by
    rw [take_add_readAt, List.prefix_append_right_inj]
    exact List.take_prefix ..
  refine ⟨hpre.trans (List.take_prefix ..), ?_⟩
  rw [List.length_append, List.length_take, List.length_take, Nat.min_eq_left h]
  omega

theorem Inv.ending (h : Inv append input start inos s) : Ending input start inos s := by
  refine ⟨h.names, s.inOff, ?_, fun i hi => ⟨_, near_take h.le, h.data i hi⟩⟩
  rw [h.out]
  exact near_take h.le

/-- Standard output has got a piece of the chunk, and so has every file. -/
theorem Inv.ending_written (h : Inv append input start inos s) {fs' : Fs} {files' : List File}
    {k w off' : Nat} (hnames : fs'.names = s.fs.names)
    (hpart : ∀ i, ∃ v, fs'.data i = s.fs.data i ++ (readAt input s.inOff BUFSIZ k).take v) :
    Ending input start inos
      ⟨fs', off', s.out ++ (readAt input s.inOff BUFSIZ k).take w, files'⟩ := by
  refine ⟨hnames.trans h.names, s.inOff, ?_, fun i hi => ?_⟩
  · show Near input s.inOff (s.out ++ _)
    rw [h.out]
    exact near_take_append h.le
  · obtain ⟨v, hv⟩ := hpart i
    refine ⟨_, @near_take_append input s.inOff k v h.le, ?_⟩
    show fs'.data i = _
    rw [hv, h.data i hi, List.append_assoc]

/-- The whole chunk is everywhere. -/
theorem Inv.next (h : Inv append input start inos s) {fs' : Fs} {files' : List File} {k : Nat}
    (hspec : Written append (readAt input s.inOff BUFSIZ k) s.fs fs' s.files files' none) :
    Inv append input start inos ⟨fs', s.inOff + (readAt input s.inOff BUFSIZ k).length,
      s.out ++ readAt input s.inOff BUFSIZ k, files'⟩ where
  names := hspec.names.trans h.names
  files := hspec.inos.trans h.files
  le := add_length_readAt_le h.le
  out := by
    show s.out ++ _ = _
    rw [take_add_readAt, h.out]
  data i hi := by
    show fs'.data i = _ ++ input.take (s.inOff + _)
    have hmem : i ∈ s.files.map File.ino := by rwa [h.files]
    rw [hspec.whole rfl i hmem, h.data i hi, take_add_readAt, List.append_assoc]
  atEnd := hspec.atEnd rfl

/-- One pass, whatever the kernel answers. -/
theorem pass_ending (h : Inv append input start inos s) (hnodup : inos.Nodup) {a : Pass}
    {st : Status} (hpass : pass append input s a = (s', st)) :
    Ending input start inos s' ∧ (st = .running → Inv append input start inos s') ∧
      (st = .success → Inv append input start inos s' ∧ s'.inOff = input.length) := by
  have hsame : ∀ k i, ∃ v, s.fs.data i = s.fs.data i ++ (readAt input s.inOff BUFSIZ k).take v :=
    fun k i => ⟨0, by rw [List.take_zero, List.append_nil]⟩
  rw [pass] at hpass
  cases hread : a.read with
  | none =>
    rw [hread] at hpass
    cases hpass
    exact ⟨h.ending, nofun, nofun⟩
  | some k =>
    simp only [hread] at hpass
    by_cases hbuf : readAt input s.inOff BUFSIZ k = []
    · rw [if_pos hbuf] at hpass
      cases hpass
      have hend := (readAt_eq_nil (by decide)).mp hbuf
      exact ⟨h.ending, nofun, fun _ => ⟨h, Nat.le_antisymm h.le hend⟩⟩
    · rw [if_neg hbuf] at hpass
      cases hstdout : a.writeStdout with
      | none =>
        simp only [hstdout] at hpass
        cases hpass
        exact ⟨⟨h.names, h.ending.near⟩, nofun, nofun⟩
      | some w =>
        simp only [hstdout] at hpass
        by_cases hall : ((readAt input s.inOff BUFSIZ k).take w).length =
            (readAt input s.inOff BUFSIZ k).length
        · rw [if_neg (not_not.mpr hall)] at hpass
          cases hwrite : writeFiles append a.writes (readAt input s.inOff BUFSIZ k) 0 s.fs s.files with
          | mk fs' r =>
            obtain ⟨files', e⟩ := r
            have hspec := written_of_writeFiles (by rw [h.files]; exact hnodup) h.atEnd hwrite
            have hending := @Inv.ending_written append input start inos s h fs' files' k w
              (s.inOff + (readAt input s.inOff BUFSIZ k).length) hspec.names hspec.part
            simp only [hwrite] at hpass
            cases e with
            | some e =>
              cases hpass
              exact ⟨hending, nofun, nofun⟩
            | none =>
              cases hpass
              refine ⟨hending, fun _ => ?_, nofun⟩
              have htake : (readAt input s.inOff BUFSIZ k).take w = readAt input s.inOff BUFSIZ k := by
                apply List.take_of_length_le
                rw [List.length_take] at hall
                omega
              rw [htake]
              exact h.next hspec
        · rw [if_pos hall] at hpass
          cases hpass
          exact ⟨h.ending_written rfl (hsame k), nofun, nofun⟩

/-- The loop, whatever the kernel answers. -/
theorem loop_ending (as : List Pass) (h : Inv append input start inos s) (hnodup : inos.Nodup)
    {st : Status} (hloop : loop append input s as = (s', st)) :
    Ending input start inos s' ∧
      (st = .success → Inv append input start inos s' ∧ s'.inOff = input.length) := by
  induction as generalizing s with
  | nil =>
    cases hloop
    exact ⟨h.ending, nofun⟩
  | cons a as ih =>
    rw [loop] at hloop
    cases hpass : pass append input s a with
    | mk t u =>
      obtain ⟨hending, hrunning, hsuccess⟩ := pass_ending h hnodup hpass
      rw [hpass] at hloop
      cases u with
      | running => exact ih (hrunning rfl) hloop
      | success | failure e =>
        cases hloop
        exact ⟨hending, hsuccess⟩

end Loop

/-! ### The whole program -/

section Main

variable {append : Bool} {names : List String} {fs fs' : Fs} {input : Bytes} {files : List File}

theorem inv_of_opened (h : Opened append fs fs' names files) :
    Inv append input fs' (files.map File.ino) ⟨fs', 0, [], files⟩ where
  names := rfl
  files := rfl
  le := Nat.zero_le _
  out := by rw [List.take_zero]
  data i _ := by
    show fs'.data i = _ ++ input.take 0
    rw [List.take_zero, List.append_nil]
  atEnd f hf := by
    obtain ⟨-, hoff, hdata⟩ := h.entry f hf
    rw [AtEnd, File.position, hoff, hdata]
    cases append <;> rfl

theorem openFiles_error {opens : Nat → Bool} {k : Nat} {e : Failure}
    (hopen : openFiles append opens k fs names = (fs', .error e)) : ∃ name, e = .opening name := by
  induction names generalizing k fs with
  | nil => cases hopen
  | cons name names ih =>
    rw [openFiles] at hopen
    split at hopen
    · cases hopen
      exact ⟨name, rfl⟩
    · cases hrest : openFiles append opens (k + 1) (openFile append fs name).1 names with
      | mk fs'' r =>
        simp only [hrest] at hopen
        cases r with
        | error e' =>
          cases hopen
          exact ih hrest
        | ok rest => cases hopen

/-- What an output has got beyond its initial contents, `d` say, is what the file that was
opened for it has got. -/
theorem Opened.contents (h : Opened append fs fs' names files) {s : State} {st : Status}
    (hs : s.fs.names = fs'.names) {P : Bytes → Prop} (hout : P s.out)
    (hfile : ∀ i ∈ files.map File.ino, ∃ d, P d ∧ s.fs.data i = fs'.data i ++ d) {o : Output}
    (ho : o ∈ outputs names) :
    ∃ d, P d ∧ (Outcome.mk s.fs s.out st).contents o = some (initial append fs o ++ d) := by
  rcases List.mem_cons.mp ho with rfl | ho
  · exact ⟨s.out, hout, rfl⟩
  · rw [← h.named, List.map_map, List.mem_map] at ho
    obtain ⟨f, hf, rfl⟩ := ho
    obtain ⟨hname, -, hdata⟩ := h.entry f hf
    obtain ⟨d, hd, hfd⟩ := hfile f.ino (List.mem_map_of_mem hf)
    refine ⟨d, hd, ?_⟩
    show (s.fs.names f.name).map s.fs.data = _
    rw [hs, hname, Option.map_some, hfd, hdata]
    rfl

/-- A run that has opened the files runs through the loop. -/
theorem main_loop (k : Kernel) (hdistinct : Distinct fs names)
    (hopen : ∀ name, (main append names fs input k).status ≠ .failure (.opening name)) :
    ∃ fs' files s st, Opened append fs fs' names files ∧
      loop append input ⟨fs', 0, [], files⟩ k.passes = (s, st) ∧
      main append names fs input k = ⟨s.fs, s.out, (main append names fs input k).status⟩ ∧
      ((main append names fs input k).status = .success → st = .success) := by
  rw [main] at hopen ⊢
  cases hfiles : openFiles append k.opens 0 fs names with
  | mk fs' r =>
    simp only [hfiles] at hopen ⊢
    cases r with
    | error e =>
      obtain ⟨name, rfl⟩ := openFiles_error hfiles
      exact absurd rfl (hopen name)
    | ok files =>
      cases hloop : loop append input ⟨fs', 0, [], files⟩ k.passes with
      | mk s st =>
        refine ⟨fs', files, s, st, opened_of_openFiles hdistinct hfiles, hloop, ?_⟩
        simp only [hloop]
        cases st with
        | success => exact ⟨rfl, fun _ => rfl⟩
        | running | failure e => exact ⟨rfl, nofun⟩

/-- **`tee` delivers the input to every output.**  Of a run that has opened all files, each
output holds its initial contents and a prefix of the input, two of these prefixes differ
by at most `BUFSIZ` bytes, and after `EXIT_SUCCESS` each is the whole input. -/
theorem main_delivers (append : Bool) (names : List String) (fs : Fs) (input : Bytes) (k : Kernel)
    (hdistinct : Distinct fs names)
    (hopen : ∀ name, (main append names fs input k).status ≠ .failure (.opening name)) :
    ((main append names fs input k).status = .success → ∀ o ∈ outputs names,
      (main append names fs input k).contents o = some (initial append fs o ++ input)) ∧
    ∃ d : Output → Bytes,
      (∀ o ∈ outputs names, d o <+: input ∧
        (main append names fs input k).contents o = some (initial append fs o ++ d o)) ∧
      ∀ o ∈ outputs names, ∀ o' ∈ outputs names, (d o).length ≤ (d o').length + BUFSIZ := by
  obtain ⟨fs', files, s, st, hopened, hloop, hmain, hst⟩ := main_loop k hdistinct hopen
  obtain ⟨⟨hnames, off, hout, hfile⟩, hsuccess⟩ :=
    loop_ending k.passes (inv_of_opened hopened) hopened.nodup hloop
  constructor
  · intro h o ho
    obtain ⟨hinv, hend⟩ := hsuccess (hst h)
    rw [hmain]
    have htake : input.take s.inOff = input := by rw [hend, List.take_length]
    obtain ⟨d, rfl, hd⟩ := hopened.contents hnames
      (P := fun d => d = input) (by rw [hinv.out, htake])
      (fun i hi => ⟨input, rfl, by rw [hinv.data i hi, htake]⟩) ho
    exact hd
  · have hall : ∀ o ∈ outputs names, ∃ d, Near input off d ∧
        (main append names fs input k).contents o = some (initial append fs o ++ d) := by
      intro o ho
      rw [hmain]
      exact hopened.contents hnames hout hfile ho
    choose! d hd using hall
    refine ⟨d, fun o ho => ⟨(hd o ho).1.1, (hd o ho).2⟩, fun o ho o' ho' => ?_⟩
    have hlow := (hd o' ho').1.2.1
    have hhigh := (hd o ho).1.2.2
    omega

/-- `a` with the byte 7, and no `b`. -/
def oneFile : Fs where
  names p := if p = "a" then some 0 else none
  data _ := [7]
  next := 1
  names_lt := Fs.names_lt_single "a"

/-- `tee -a a b`, the input is read byte by byte, and the second write to `b` fails. -/
def failing : Kernel where
  opens _ := true
  passes := [⟨some 1, some 1, fun _ => some 1⟩,
    ⟨some 1, some 1, fun i => if i = 1 then none else some 1⟩]
  closes _ := true

theorem distinct_oneFile : Distinct oneFile ["a", "b"] := by
  rw [Distinct, List.pairwise_pair]
  exact ⟨by decide, fun i _ => nofun⟩

/-- Then `a` has one byte more than `b`. -/
theorem main_delivers_append :
    (main true ["a", "b"] oneFile [1, 2, 3] failing).status = .failure (.writing "b") ∧
    ∃ d : Output → Bytes,
      (∀ o ∈ outputs ["a", "b"], d o <+: [1, 2, 3] ∧
        (main true ["a", "b"] oneFile [1, 2, 3] failing).contents o =
          some (initial true oneFile o ++ d o)) ∧
      ∀ o ∈ outputs ["a", "b"], ∀ o' ∈ outputs ["a", "b"],
        (d o).length ≤ (d o').length + BUFSIZ := by
  have hstatus : (main true ["a", "b"] oneFile [1, 2, 3] failing).status =
      .failure (.writing "b") := by decide
  refine ⟨hstatus, (main_delivers true ["a", "b"] oneFile [1, 2, 3] failing distinct_oneFile
    fun name h => ?_).2⟩
  rw [hstatus] at h
  cases h

end Main

end Tlpi.Tee
