import Mathlib.Data.Fin.VecNotation
import Mathlib.Data.List.DropRight
import Boron.Lib.Worklist
import Boron.Rtl.Elf

/-! # Loading the libraries

`OSDLLRunImage` keeps a queue of the names that the images mapped so far ask for. A name that equals
the one recorded for a loaded image is dropped, any other is opened and mapped. The queue holds the
name as it is asked for, the record holds it without its directory and cut to 31 characters, so a
library whose name has a directory or is longer is never recognised again, and a name can also be
taken for the short name of another library. -/

namespace Boron.Os.Loader

open Boron.Rtl Relation Function List

/-! ## Names -/

/-- `OB_PATH_SEPARATOR`. -/
def pathSeparator : BitVec 8 := 0x2F#8

/-- `OSDLLOffsetPathAway`: what follows the last separator. -/
def offsetPathAway (name : CString) : CString := name.rtakeWhile (· ≠ pathSeparator)

/-- `StringCopySafe` into a buffer of `size` bytes, the last one for the terminator. -/
def stringCopySafe (src : CString) (size : Nat) : CString := src.take (size - 1)

/-- `sizeof(LoadedImage->Name)`. -/
def nameSize : Nat := 32

/-- The `Name` that `OSDLLMapElfFile` records for an image mapped under a name. -/
def recordedName (name : CString) : CString := stringCopySafe (offsetPathAway name) nameSize

/-- The characters of `libboron.so`. -/
def libboronName : CString :=
  [0x6C#8, 0x69#8, 0x62#8, 0x62#8, 0x6F#8, 0x72#8, 0x6F#8, 0x6E#8, 0x2E#8, 0x73#8, 0x6F#8]

/-- A name is recorded as it is when it has no directory and leaves room for the terminator. -/
theorem recordedName_eq_self_iff (name : CString) :
    recordedName name = name ↔ pathSeparator ∉ name ∧ name.length < nameSize := by
  constructor
  · intro h
    refine ⟨fun hme => ?_, ?_⟩
    · rw [← h] at hme
      simpa using mem_rtakeWhile_imp (mem_of_mem_take hme)
    · have hln := congrArg List.length h
      rw [recordedName, stringCopySafe, length_take] at hln
      unfold nameSize at *
      omega
  · rintro ⟨hsp, hln⟩
    have hp : offsetPathAway name = name := by
      refine rtakeWhile_eq_self_iff.2 fun c hc => ?_
      simpa using fun h : c = pathSeparator => hsp (h ▸ hc)
    rw [recordedName, hp, stringCopySafe]
    exact take_of_length_le (Nat.le_sub_one_of_lt hln)

/-! ## The libraries -/

/-- The files a program is loaded from: what a name opens, the name under which a library is asked
for, and the libraries that the `DYN_NEEDED` entries of an image ask for. -/
structure Libraries (L : Type*) where
  openFileByName : CString → Option L
  name : L → CString
  opens : ∀ l, openFileByName (name l) = some l
  needed : L → List L
  libboron : L
  main : L
  libboron_name : name libboron = libboronName
  libboron_ne_main : libboron ≠ main

/-- What the loop reads of a `LOADED_IMAGE`, and the library it was mapped from. -/
structure Image (L : Type*) where
  library : L
  name : CString
deriving DecidableEq

/-- `OSDllLoadQueue`, and `OSDllsLoaded` in list order. -/
structure State (L : Type*) where
  queue : List CString
  loaded : List (Image L)
deriving DecidableEq

namespace Libraries

variable {L : Type*} (F : Libraries L)

theorem name_injective : Injective F.name := by
  intro a b h
  have := F.opens a
  rw [h, F.opens b] at this
  exact (Option.some.inj this).symm

/-- `RtlParseDynamicTable`: each needed name goes to the tail of the queue. -/
def parseDynamicTable (l : L) (queue : List CString) : List CString :=
  queue ++ (F.needed l).map F.name

/-- The end of `OSDLLMapElfFile`: read the dynamic table and record the image. -/
def mapElfFile (l : L) (name : CString) (s : State L) : State L :=
  { queue := F.parseDynamicTable l s.queue
    loaded := s.loaded ++ [{ library := l, name := recordedName name }] }

/-- `OSDLLLoadDynamicLibrary`. -/
def loadDynamicLibrary (name : CString) (s : State L) : Option (State L) := do
  let l ← F.openFileByName name
  return F.mapElfFile l name s

/-- `OSDLLAddSelfToDllList`. -/
def addSelfToDllList (s : State L) : State L :=
  { queue := F.parseDynamicTable F.libboron s.queue
    loaded := s.loaded ++ [{ library := F.libboron, name := libboronName }] }

/-- The state in which the loop of `OSDLLRunImage` begins: `libboron.so` is in the list and the main
executable has just been mapped. -/
def start : State L :=
  F.mapElfFile F.main (F.name F.main) (F.addSelfToDllList { queue := [], loaded := [] })

/-- The search through the loaded images for a name. -/
def isLoaded (loaded : List (Image L)) (pathName : CString) : Bool :=
  loaded.any fun image => image.name = pathName

/-- One turn of the loop of `OSDLLRunImage`; `none` when it returns with an error. -/
def turn (s : State L) : Option (State L) :=
  match s.queue with
  | [] => some s
  | pathName :: rest =>
    let s := { s with queue := rest }
    if isLoaded s.loaded pathName then some s
    else F.loadDynamicLibrary pathName s

/-- The loop after `n` turns. -/
def run : Nat → Option (State L)
  | 0 => some F.start
  | n + 1 => run n >>= F.turn

/-! ## What is expected -/

/-- The images whose needs the loop works through. -/
def roots : List L := [F.libboron, F.main]

/-- A library that a chain of `DYN_NEEDED` entries leads to. -/
def Reachable (l : L) : Prop := ∃ r ∈ F.roots, ReflTransGen (fun a b => b ∈ F.needed a) r l

variable [DecidableEq L]

/-- The loop ends, with the queue empty and each library in reach mapped once. -/
def LoadsRight : Prop :=
  ∃ n s, F.run n = some s ∧ s.queue = [] ∧
    ∀ l, F.Reachable l → (s.loaded.map Image.library).count l = 1

/-- The libraries waiting and loaded after `k` requests of the breadth-first walk of the libraries
from the two images. -/
def walk (k : Nat) : Worklist L :=
  (Worklist.turn F.needed Worklist.isVisited)^[k] (Worklist.start F.needed F.roots)

/-- The name of the next library of the walk is the recorded name of a library loaded before
exactly when that library itself was. -/
def RecognisedAt (w : Worklist L) : Prop :=
  ∀ l ∈ w.queue.head?, (∃ m ∈ w.visited, recordedName (F.name m) = F.name l) ↔ l ∈ w.visited

instance (w : Worklist L) : Decidable (F.RecognisedAt w) := by
  unfold RecognisedAt
  infer_instance

/-! ## The loop as a walk of the libraries -/

/-- The search through the names recorded for the libraries loaded. -/
def recognised (visited : List L) (l : L) : Bool :=
  visited.any fun m => recordedName (F.name m) = F.name l

omit [DecidableEq L] in
theorem recognised_eq_true {vis : List L} {l : L} :
    F.recognised vis l = true ↔ ∃ m ∈ vis, recordedName (F.name m) = F.name l := by
  simp [recognised]

/-- The queue and the images of a walk. -/
def ofWalk (w : Worklist L) : State L :=
  { queue := w.queue.map F.name
    loaded := w.visited.map fun l => { library := l, name := recordedName (F.name l) } }

omit [DecidableEq L] in
theorem ofWalk_libraries (w : Worklist L) : (F.ofWalk w).loaded.map Image.library = w.visited := by
  simp [ofWalk, comp_def]

omit [DecidableEq L] in
theorem isLoaded_ofWalk (w : Worklist L) (l : L) :
    isLoaded (F.ofWalk w).loaded (F.name l) = F.recognised w.visited l := by
  simp [isLoaded, ofWalk, recognised, any_map, comp_def]

theorem recordedName_libboron : recordedName libboronName = libboronName := by decide

omit [DecidableEq L] in
theorem start_eq : F.start = F.ofWalk (Worklist.start F.needed F.roots) := by
  simp [start, addSelfToDllList, mapElfFile, parseDynamicTable, ofWalk, Worklist.start, roots,
    F.libboron_name, recordedName_libboron]

omit [DecidableEq L] in
theorem turn_ofWalk (w : Worklist L) :
    F.turn (F.ofWalk w) = some (F.ofWalk (Worklist.turn F.needed F.recognised w)) := by
  obtain ⟨hq, he⟩ | ⟨l, rest, hq, ht, he⟩ | ⟨l, rest, hq, ht, he⟩ :=
    Worklist.turn_cases F.needed F.recognised w
  · rw [he]
    simp [turn, ofWalk, hq]
  · have hqu : (F.ofWalk w).queue = F.name l :: rest.map F.name := by simp [ofWalk, hq]
    rw [he, turn, hqu]
    simp only [isLoaded_ofWalk, ht, if_true]
    rfl
  · have hqu : (F.ofWalk w).queue = F.name l :: rest.map F.name := by simp [ofWalk, hq]
    rw [he, turn, hqu]
    simp only [isLoaded_ofWalk, ht, loadDynamicLibrary, F.opens, mapElfFile, parseDynamicTable]
    simp [ofWalk]

omit [DecidableEq L] in
theorem run_eq (n : Nat) : F.run n =
    some (F.ofWalk ((Worklist.turn F.needed F.recognised)^[n] (Worklist.start F.needed F.roots))) := by
  induction n with
  | zero => rw [run, start_eq, iterate_zero_apply]
  | succ n ih =>
    rw [run, ih, iterate_succ_apply']
    exact F.turn_ofWalk _

theorem agreeAt_iff (w : Worklist L) :
    Worklist.AgreeAt F.recognised Worklist.isVisited w ↔ F.RecognisedAt w := by
  refine forall₂_congr fun l _ => ?_
  rw [Bool.eq_iff_iff, recognised_eq_true, Worklist.isVisited, decide_eq_true_iff]

theorem loadsRight_iff_walk : F.LoadsRight ↔
    ∃ n, ((Worklist.turn F.needed F.recognised)^[n] (Worklist.start F.needed F.roots)).queue = [] ∧
      ∀ r ∈ F.roots, ∀ l, ReflTransGen (fun a b => b ∈ F.needed a) r l →
        ((Worklist.turn F.needed F.recognised)^[n]
          (Worklist.start F.needed F.roots)).visited.count l = 1 := by
  unfold LoadsRight
  simp only [run_eq, Option.some.injEq, exists_eq_left', ofWalk_libraries]
  refine exists_congr fun n => and_congr ?_ ⟨fun h r hr l hl => h l ⟨r, hr, hl⟩,
    fun h l ⟨r, hr, hl⟩ => h r hr l hl⟩
  rw [ofWalk, map_eq_nil_iff]

omit [DecidableEq L] in
theorem recognised_append (l m : List L) (v : L) (h : F.recognised l v = true) :
    F.recognised (l ++ m) v = true := by
  rw [recognised, any_append]
  exact Bool.or_eq_true_iff.2 (.inl h)

theorem loadsRight_iff_agreeAt [Fintype L] : F.LoadsRight ↔
    ∀ k, Worklist.AgreeAt F.recognised Worklist.isVisited (F.walk k) := by
  have hrt : F.roots.Nodup := by
    simpa [roots] using F.libboron_ne_main
  rw [loadsRight_iff_walk]
  exact Worklist.visits_once_iff hrt F.recognised_append

/-! ## The loop is right when every name is recognised -/

/-- The loop ends with each library in reach mapped once exactly when, at each turn of the
breadth-first walk of the libraries, the next name is one recorded before if and only if its library
was loaded before. -/
theorem loadsRight_iff_recognised [Fintype L] : F.LoadsRight ↔ ∀ k, F.RecognisedAt (F.walk k) := by
  rw [loadsRight_iff_agreeAt]
  exact forall_congr' fun k => F.agreeAt_iff _

end Libraries

/-- A program that needs `/a`, where `/a` needs `/b` and `/b` needs `/a`. -/
def pathCycle : Libraries (Fin 4) :=
  let name : Fin 4 → CString := ![libboronName, [0x6D#8], [0x2F#8, 0x61#8], [0x2F#8, 0x62#8]]
  { openFileByName := fun n => (List.finRange 4).find? fun l => name l = n
    name := name
    opens := by decide
    needed := ![[], [2], [3], [2]]
    libboron := 0
    main := 1
    libboron_name := rfl
    libboron_ne_main := by decide }

/-- At the third request of the walk `/a` is loaded, but recorded as `a`. -/
theorem pathCycle_not_loadsRight : ¬ pathCycle.LoadsRight := by
  rw [Libraries.loadsRight_iff_agreeAt]
  intro h
  exact absurd ((pathCycle.agreeAt_iff _).1 (h 2)) (by decide)

/-- The same program with the names `a` and `b`. -/
def plainCycle : Libraries (Fin 4) :=
  let name : Fin 4 → CString := ![libboronName, [0x6D#8], [0x61#8], [0x62#8]]
  { pathCycle with
    openFileByName := fun n => (List.finRange 4).find? fun l => name l = n
    name := name
    opens := by decide
    libboron_name := rfl }

end Boron.Os.Loader
