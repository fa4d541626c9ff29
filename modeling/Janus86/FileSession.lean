import Janus86.AtoiModel
import Janus86.Fat32FileLoad
import Janus86.Fat32RootDirectory
import Janus86.PathResolution
import Janus86.ShellBuiltins

/-!
# From the keyboard to the bytes of a file

A session on a FAT32 partition, as it is typed: `root` mounts the partition, every `cd`
goes where its path leads in the tree of directories, every `load` stores the bytes of a
file of the directory it is called in, and `fs_prop` is the list of that directory all the
while.  Each command takes the nodes of the lists that it builds from `kmalloc`.
-/

namespace Janus86

namespace Fat32

theorem initFat32_globals {vol : Volume} (hbooted : Booted vol)
    {stack : Stack} {cluster : ℕ} {g : Globals} {fresh : List FreshBlock}
    {listed : Listed}
    (hinit : initFat32 vol stack cluster g fresh = .ok listed) :
    listed.globals = bootedGlobals vol := by
  unfold initFat32 at hinit
  obtain ⟨_, _, hrest⟩ := bind_eq_ok_iff.mp hinit
  rw [fat32RdBootsec_booted hbooted.readable hbooted.magic] at hrest
  dsimp only at hrest
  rw [if_neg (by decide)] at hrest
  obtain ⟨_, _, hlast⟩ := bind_eq_ok_iff.mp hrest
  cases hlast
  rfl

end Fat32

namespace Shell

open StepMachine ChunkStores Janus86.Partition
open Fat32 (DiskTree FatFile)

/-- A run over lines is one over their words. -/
theorem foldlM_runLine (run : Meaning World) (lines : List (List UInt8)) (w : World) :
    lines.foldlM (runLine run) w = (lines.map words).foldlM (runWords run) w := by
  rw [List.foldlM_map]
  rfl

theorem cString_name_of_shown {nodes : List FsProperties} {entry : Entry}
    (hlisted : entry ∈ shownFiles nodes) : cString entry.name = entry.name := by
  obtain ⟨node, _, hnode⟩ := List.mem_map.mp (List.mem_of_mem_filter hlisted)
  have hname : entry.name = node.name := by
    rw [← hnode]
    rfl
  rw [hname, FsProperties.name]
  exact (cString_eq_self_iff _).mpr fun c hc => by simpa using List.mem_takeWhile_imp hc

variable {e : Surroundings} {lba : ℕ} {used : ℕ → Bool}

/-- The rows of `lsdrv` fit into the buffer of `kprintf`. -/
def ShortNames (w : World) : Prop := ∀ d ∈ w.machine.drvList, d.drvName.length ≤ 45

/-- The vfat driver is installed, is in a directory of the tree and has shown its list; so
many nodes can still be taken, and this memory is in use. -/
structure InTree (t : DiskTree e.kernel.disk 0 lba) (used : ℕ → Bool) (room d : ℕ)
    (w : World) : Prop where
  mem_dirs : d ∈ t.dirs
  mounted : e.kernel.mounted w.machine = some .vfat
  place : w.machine.world.vfat.place = ⟨0, lba, d⟩
  shown : ∃ listing, w.machine.fsProp = .list listing ∧
    shownFiles listing.nodes = t.entries d
  room : room ≤ w.machine.world.vfat.fresh.length
  inUse : w.inUse = used
  names : ShortNames w

/-- A regular file of a directory of the tree, which `load` can load: its size is no
negative `int`, its bytes lie in a row, and the walk along the FAT ends. -/
structure Loadable (t : DiskTree e.kernel.disk 0 lba) (d : ℕ) (name : List UInt8) where
  file : FatFile ⟨e.kernel.disk, 0, lba⟩ (Fat32.bootedGlobals ⟨e.kernel.disk, 0, lba⟩)
  entry : Entry
  listed : entry ∈ t.entries d
  name_eq : entry.name = name
  start_eq : entry.start = file.start
  size_eq : entry.size = file.size
  no_directory : entry.fileType ≠ directory
  small : file.size < 2 ^ 31
  contiguous : file.Contiguous
  ends : Fat32.WalkEnds ⟨e.kernel.disk, 0, lba⟩
    (Fat32.bootedGlobals ⟨e.kernel.disk, 0, lba⟩) file.start file.size

/-- What is stored when the file is loaded leaves alone what is in use. -/
def Loadable.Clear {t : DiskTree e.kernel.disk 0 lba} {d : ℕ} {name : List UInt8}
    (l : Loadable t d name) (used : ℕ → Bool) (loadMem : ℕ) : Prop :=
  l.file.Clear { a | used a = true } (destination loadMem e.scratch.block)

/-- The bytes of the file stand at its destination. -/
def Loadable.Stored {t : DiskTree e.kernel.disk 0 lba} {d : ℕ} {name : List UInt8}
    (l : Loadable t d name) (loadMem : ℕ) (w : World) : Prop :=
  ∀ p < l.file.size, w.bytes (destination loadMem e.scratch.block + p) = l.file.byte p

/-- The commands that leave the driver and its list alone, where `kprintf` has room for
the words and for the names that `ls` prints. -/
structure Looks (entries : List Entry) (ws : List (List UInt8)) : Prop where
  command : ∀ cmd, ws.head?.bind findBuiltin = some cmd →
    cmd ∈ [Builtin.help, .ls, .clear, .ppart, .lsdrv, .dump]
  short : ∀ word ∈ ws, word.length ≤ 77
  fits : ws.head?.bind findBuiltin = some .ls → ∀ entry ∈ entries, Fits entry

def cdWord : List UInt8 := [99, 100]
def loadWord : List UInt8 := [108, 111, 97, 100]
def rootWord : List UInt8 := [114, 111, 111, 116]

/-- The words of lines that lead from one directory to another, and the nodes that their
commands take. -/
inductive Visit (t : DiskTree e.kernel.disk 0 lba) (used : ℕ → Bool) :
    ℕ → List (List (List UInt8)) → ℕ → ℕ → Prop
  | done (d : ℕ) : Visit t used d [] 0 d
  | cd {d d' n : ℕ} {path : List UInt8} {names : List (List UInt8)} {ds : List ℕ}
      {more : List (List (List UInt8))} (spells : Spells path names)
      (feed : NoLineFeed names) (few : names.length ≤ directoryNum)
      (short : path.length ≤ pathLen) (leads : t.Leads d names ds)
      (rest : Visit t used (ds.getLastD d) more n d') :
      Visit t used d ([cdWord, path] :: more) (t.blocks d + t.blocksOf ds + n) d'
  | load {d d' n : ℕ} {name number : List UInt8} {more : List (List (List UInt8))}
      (file : Loadable t d name) (clear : file.Clear used (e.atoi number))
      (rest : Visit t used d more n d') :
      Visit t used d ([loadWord, [45, 102], name, number] :: more) (t.blocks d + n) d'
  | look {d d' n : ℕ} {ws : List (List UInt8)} {more : List (List (List UInt8))}
      (looks : Looks (t.entries d) ws) (rest : Visit t used d more n d') :
      Visit t used d (ws :: more) n d'

/-! ## Reading a directory -/

section Commands

variable {t : DiskTree e.kernel.disk 0 lba} {room n d : ℕ} {ds : List ℕ} {w : World}

/-- A call of `init_fat32` in the current directory. -/
theorem InTree.read (hat : InTree t used room d w) (hroom : t.blocks d ≤ room) :
    ∃ listed : Fat32.Listed, ∃ s' : Fat32.State,
      Fat32.initFat32 ⟨e.kernel.disk, 0, lba⟩ (w.machine.world.vfat.locals 0) d
        w.machine.world.vfat.globals w.machine.world.vfat.fresh = .ok listed ∧
      listed.globals = Fat32.bootedGlobals ⟨e.kernel.disk, 0, lba⟩ ∧
      shownFiles listed.search = t.entries d ∧
      (∃ listing, (Fat32.reader e.kernel.disk).read w.machine.world.vfat =
        .ok (listing, s')) ∧
      s'.place = ⟨0, lba, d⟩ ∧ room ≤ s'.fresh.length + t.blocks d := by
  have hfresh := hat.room
  obtain ⟨c, hread, hin, hleft⟩ := t.shown.read hat.mem_dirs hat.place (by omega)
  obtain ⟨listed, hinit, hrest⟩ := bind_eq_ok_iff.mp hread
  have hvolume : w.machine.world.vfat.volume e.kernel.disk = ⟨e.kernel.disk, 0, lba⟩ := by
    rw [DriverState.volume, hat.place]
  rw [hvolume, hat.place] at hinit
  refine ⟨listed, c.state, hinit, Fat32.initFat32_globals t.booted hinit, ?_,
    ⟨c.listing, hread⟩, hin.place, by omega⟩
  have hlisting : c.listing =
      ⟨.vfat, w.machine.world.vfat.place, listed.list, listed.search⟩ :=
    (congrArg Prod.fst (Except.ok.inj hrest)).symm
  have hsearch := hin.search
  rwa [hlisting] at hsearch

/-- After another read of the directory the driver is where it was. -/
theorem InTree.after (hat : InTree t used n d w) {s' : Fat32.State}
    (hplace : s'.place = ⟨0, lba, d⟩) (hroom : room ≤ s'.fresh.length) (mem : Buffer) :
    InTree t used room d
      { w with
        machine := { w.machine with world := { w.machine.world with vfat := s' } }
        mem := mem } :=
  ⟨hat.mem_dirs, hat.mounted, hplace, hat.shown, hroom, hat.inUse, hat.names⟩

theorem InTree.less (hat : InTree t used room d w) {room' : ℕ} (hle : room' ≤ room) :
    InTree t used room' d w :=
  ⟨hat.mem_dirs, hat.mounted, hat.place, hat.shown, hle.trans hat.room, hat.inUse, hat.names⟩

/-! ## cd -/

theorem InTree.cmdCd (hat : InTree t used (t.blocks d + t.blocksOf ds + room) d w)
    {path : List UInt8} {names : List (List UInt8)} (hspells : Spells path names)
    (hfeed : NoLineFeed names) (hfew : names.length ≤ directoryNum)
    (hshort : path.length ≤ pathLen) (hleads : t.Leads d names ds) :
    ∃ w', e.cmdCd path w = .ok w' ∧ InTree t used room (ds.getLastD d) w' ∧ w'.mem = w.mem := by
  have hfresh := hat.room
  obtain ⟨r, hcall, hshows, hleft⟩ := t.follows path names d ds w.machine.world.vfat
    hspells hfeed hfew hshort hleads hat.mem_dirs hat.place (by omega)
  obtain ⟨listing, hreply, hnodes⟩ := hshows.list
  have hchdir : w.machine.symbols.chdir ≠ 0 := by
    rw [Fs.Kernel.mounted_eq_some hat.mounted]
    exact e.kernel.symbols_chdir_ne .vfat
  have hfs : Fs.fsChdir e.kernel path w.machine = .ok (.list listing,
      { w.machine with world := { w.machine.world with vfat := r.2 } }) := by
    rw [Fs.fsChdir, if_neg hchdir]
    simp only [hat.mounted]
    rw [hcall, ← hreply]
    rfl
  refine ⟨{ w with
    machine := { w.machine with
      world := { w.machine.world with vfat := r.2 }
      fsProp := .list listing } }, ?_, ?_, rfl⟩
  · rw [Surroundings.cmdCd, Fs.cmdCd, if_pos rfl, hfs]
    rfl
  · exact ⟨hleads.mem_dirs hat.mem_dirs, hat.mounted, hshows.place, ⟨listing, rfl, hnodes⟩,
      by dsimp only; omega, hat.inUse, hat.names⟩

/-! ## load -/

theorem Loadable.loads {name : List UInt8} (l : Loadable t d name) {stack : Fat32.Stack}
    {g : Fat32.Globals} {fresh : List FreshBlock}
    (hlisted : l.file.ListedAs stack d g fresh name) (hkernel : ∃ a < 2 ^ 32, used a = true)
    {loadMem : ℕ} (hclear : l.Clear used loadMem) :
    l.file.Loads { a | used a = true } stack d g fresh name loadMem e.scratch.block := by
  obtain ⟨a, hlt, ha⟩ := hkernel
  exact (FatFile.loads_iff hlisted ⟨a, ha, hlt⟩ loadMem e.scratch.block).mpr
    ⟨l.small, l.contiguous, l.ends, hclear⟩

theorem InTree.listedAs (hat : InTree t used room d w) (hroom : t.blocks d ≤ room)
    {name : List UInt8} (l : Loadable t d name) :
    l.file.ListedAs (w.machine.world.vfat.locals 0) d w.machine.world.vfat.globals
      w.machine.world.vfat.fresh name := by
  obtain ⟨listed, _, hinit, hglobals, hsearch, _⟩ := hat.read hroom
  have hmem := l.listed
  rw [← hsearch] at hmem
  obtain ⟨node, hfind, hentry⟩ := findName_of_mem
    (by rw [hsearch]; exact t.unique d hat.mem_dirs) hmem
  rw [l.name_eq] at hfind
  refine ⟨listed, node, hinit, hglobals, hfind, ?_, ?_, ?_⟩
  · rw [← l.start_eq, ← hentry]
    rfl
  · rw [← l.size_eq, ← hentry]
    rfl
  · intro htype
    apply l.no_directory
    rw [← hentry]
    exact htype

theorem Loadable.cString_name {name : List UInt8} (l : Loadable t d name)
    (hat : InTree t used room d w) : cString name = name := by
  obtain ⟨listing, _, hshown⟩ := hat.shown
  have hlisted := l.listed
  rw [← hshown] at hlisted
  rw [← l.name_eq]
  exact cString_name_of_shown hlisted

theorem InTree.fsLoadfile (hat : InTree t used (t.blocks d + room) d w) {name : List UInt8}
    (l : Loadable t d name) (hkernel : ∃ a < 2 ^ 32, used a = true) {loadMem : ℕ}
    (hclear : l.Clear used loadMem) :
    ∃ reply w', e.fsLoadfile name loadMem w = .ok (reply, w') ∧ InTree t used room d w' ∧
      l.Stored loadMem w' := by
  obtain ⟨listed, s', _, _, _, ⟨listing, hread⟩, hplace, hleft⟩ :=
    hat.read (Nat.le_add_right _ _)
  obtain ⟨load, hload, hreply, havoids, hbytes⟩ :=
    l.loads (hat.listedAs (Nat.le_add_right _ _) l) hkernel hclear
  have hname := l.cString_name hat
  have hvolume : w.machine.world.vfat.volume e.kernel.disk = ⟨e.kernel.disk, 0, lba⟩ := by
    rw [DriverState.volume, hat.place]
  have hdir : w.machine.world.vfat.place.dir = d := by rw [hat.place]
  have hloadfile : w.machine.symbols.loadfile ≠ 0 := by
    rw [Fs.Kernel.mounted_eq_some hat.mounted]
    exact e.loadfile_ne .vfat
  have hstored : Fs.fileStored e.kernel e.scratch name loadMem w.machine = .ok load := by
    rw [Fs.fileStored, if_neg hloadfile]
    simp only [hat.mounted]
    rw [hvolume, hdir, hname]
    exact hload
  have hfs : Fs.fsLoadfile e.kernel e.scratch name loadMem w.machine = .ok (load.reply,
      { w.machine with world := { w.machine.world with vfat := s' } }) := by
    rw [Fs.fsLoadfile, if_neg hloadfile]
    simp only [hat.mounted]
    rw [Fat32.loadCurrent, hvolume, hdir, hname, hload, ok_bind, hread]
    rfl
  have hunit : e.kernel.unit w.machine = 512 := by
    rw [Fs.Kernel.unit, hat.mounted, if_neg (by simp)]
  have hclear' : ∀ s ∈ wrapped (chunkStores (e.kernel.unit w.machine) load.reply load.chunks),
      w.inUse s.1 = false := by
    intro s hs
    rw [hunit] at hs
    rw [hat.inUse]
    exact Bool.eq_false_iff.mpr (havoids s hs)
  have hfile := e.fsLoadfile_ok hstored hfs hclear'
  rw [hunit] at hfile
  refine ⟨load.reply, _, hfile, hat.after hplace (by omega)
    (applyStores w.mem (wrapped (chunkStores 512 load.reply load.chunks))), fun p hp => ?_⟩
  have hbyte := hbytes w.mem p hp
  rw [hreply] at hbyte ⊢
  exact hbyte

/-! ## Runs of commands -/

theorem runWords_of_find {name : List UInt8} {cmd : Builtin}
    (hfind : findBuiltin name = some cmd) (args : List (List UInt8)) (w : World) :
    runWords e.meaning w (name :: args) = e.meaning cmd (name :: args) w := by
  rw [runWords, List.head?_cons]
  dsimp only
  rw [hfind]

theorem runWords_cd (path : List UInt8) (w : World) :
    runWords e.meaning w [cdWord, path] = e.cmdCd path w :=
  runWords_of_find (show findBuiltin cdWord = some .cd by decide +kernel) [path] w

theorem runWords_load (name number : List UInt8) (w : World) :
    runWords e.meaning w [loadWord, [45, 102], name, number] =
      e.loadFile name (e.atoi number) w :=
  runWords_of_find (show findBuiltin loadWord = some .load by decide +kernel)
    [[45, 102], name, number] w

theorem runWords_root (digits : List UInt8) (w : World) :
    runWords e.meaning w [rootWord, 112 :: digits] = e.cmdRoot 2 (112 :: digits) w :=
  runWords_of_find (show findBuiltin rootWord = some .root by decide +kernel)
    [112 :: digits] w

/-- Looking around prints what fits, and leaves everything as it is. -/
theorem Looks.runWords {entries : List Entry} {ws : List (List UInt8)}
    (hlooks : Looks entries ws) (hshown : ∃ listing, w.machine.fsProp = .list listing ∧
      shownFiles listing.nodes = entries) (hnames : ShortNames w) :
    runWords e.meaning w ws = .ok w := by
  unfold Shell.runWords
  cases hhead : ws.head? with
  | none => rfl
  | some name =>
      dsimp only
      cases hcmd : findBuiltin name with
      | none =>
          have hshort := hlooks.short name (List.mem_of_mem_head? hhead)
          dsimp only
          rw [kprintf_cannotExec (by omega)]
          rfl
      | some cmd =>
          have hfind : ws.head?.bind findBuiltin = some cmd := by
            rw [hhead, Option.bind_some, hcmd]
          have hmem := hlooks.command cmd hfind
          simp only [List.mem_cons, List.not_mem_nil, or_false] at hmem
          rcases hmem with rfl | rfl | rfl | rfl | rfl | rfl
          · have hwords : ∀ i, 1 ≤ i → i < ws.length →
                ∃ word, wordAt ws i = .ok word ∧ word.length ≤ 77 := by
              intro i _ hi
              refine ⟨_, rfl, hlooks.short _ ?_⟩
              rw [List.getD_eq_getElem?_getD, List.getElem?_eq_getElem hi, Option.getD_some]
              exact List.getElem_mem hi
            simp only [Surroundings.meaning, cmdHelp_ok hwords]
            rfl
          · obtain ⟨listing, hlist, hentries⟩ := hshown
            have hfits := hlooks.fits hfind
            rw [← hentries] at hfits
            have hargv : ws.length = 2 → ∃ c, wordAt ws 1 = .ok c := fun _ => ⟨_, rfl⟩
            simp only [Surroundings.meaning, hlist, cmdLs_ok hargv hfits]
            rfl
          · rfl
          · rfl
          · simp only [Surroundings.meaning, listDrivers_ok hnames]
            rfl
          · rfl

theorem InTree.loadFile (hat : InTree t used (t.blocks d + room) d w) {name : List UInt8}
    (l : Loadable t d name) (hkernel : ∃ a < 2 ^ 32, used a = true) {loadMem : ℕ}
    (hclear : l.Clear used loadMem) :
    ∃ w', e.loadFile name loadMem w = .ok w' ∧ InTree t used room d w' ∧
      l.Stored loadMem w' := by
  obtain ⟨reply, w', hload, hat', hstored⟩ := hat.fsLoadfile l hkernel hclear
  exact ⟨w', by rw [Surroundings.loadFile, hload]; rfl, hat', hstored⟩

/-- The commands lead through the tree, whatever they do on the way. -/
theorem Visit.runs {wss : List (List (List UInt8))} {d' : ℕ} (hvisit : Visit t used d wss n d')
    (hkernel : ∃ a < 2 ^ 32, used a = true) (hat : InTree t used (n + room) d w) :
    ∃ w', wss.foldlM (runWords e.meaning) w = .ok w' ∧ InTree t used room d' w' := by
  induction hvisit generalizing w with
  | done d => exact ⟨w, rfl, hat.less (by omega)⟩
  | cd hspells hfeed hfew hshort hleads _ ih =>
      rw [Nat.add_assoc] at hat
      obtain ⟨w₁, hcd, hat₁, _⟩ := hat.cmdCd hspells hfeed hfew hshort hleads
      obtain ⟨w₂, hrest, hat₂⟩ := ih hat₁
      refine ⟨w₂, ?_, hat₂⟩
      rw [List.foldlM_cons, runWords_cd, hcd]
      exact hrest
  | load file hclear _ ih =>
      rw [Nat.add_assoc] at hat
      obtain ⟨w₁, hload, hat₁, _⟩ := hat.loadFile file hkernel hclear
      obtain ⟨w₂, hrest, hat₂⟩ := ih hat₁
      refine ⟨w₂, ?_, hat₂⟩
      rw [List.foldlM_cons, runWords_load, hload]
      exact hrest
  | look hlooks _ ih =>
      obtain ⟨w₂, hrest, hat₂⟩ := ih hat
      refine ⟨w₂, ?_, hat₂⟩
      rw [List.foldlM_cons, hlooks.runWords hat.shown hat.names]
      exact hrest

/-! ## root -/

/-- The number behind the `p` is that of a partition with this start, and the driver that
is registered for its type is the vfat driver. -/
structure Mounts (e : Surroundings) (lba : ℕ) (digits : List UInt8) (w : World) : Prop where
  zero_free : 0 ∉ digits
  driver : ∃ driver, Fs.driverFor w.machine.drvList
      (Fs.partitionNode e.partitions (toInt32 (e.atoi digits)) typeByteOffset) =
        some driver ∧ driver.symbols = e.kernel.symbols .vfat
  start : le32 (Fs.partitionNode e.partitions (toInt32 (e.atoi digits))) stLbaOffset = lba

theorem Mounts.cmdRoot {digits : List UInt8} (hmounts : Mounts e lba digits w)
    (hnames : ShortNames w) (hroot : 2 ∈ t.dirs)
    (hroom : t.blocks 2 + room ≤ w.machine.world.vfat.fresh.length) :
    ∃ w', e.cmdRoot 2 (112 :: digits) w = .ok w' ∧ InTree t w.inUse room 2 w' := by
  obtain ⟨hzero, ⟨driver, hdriver, hsymbols⟩, hstart⟩ := hmounts
  obtain ⟨c, hread, hin, hleft⟩ := t.shown.read hroot
    (s := w.machine.world.vfat.moved lba 0 2) rfl (by simp only [DriverState.moved]; omega)
  have hne : driver.symbols.root ≠ e.kernel.ext2.root := by
    rw [hsymbols]
    exact fun h => e.kernel.root_ne h.symm
  have hvfat : driver.symbols.root = e.kernel.vfat.root := congrArg Fs.Symbols.root hsymbols
  have hrootFat : Fat32.rootFat32 e.kernel.disk lba 0 2 w.machine.world.vfat =
      .ok (.list c.listing, c.state) := by
    rw [Fat32.rootFat32_eq]
    exact congrArg (Except.map _) hread
  have hfs : Fs.fsRoot e.kernel.rootRoutine e.partitions (toInt32 (e.atoi digits))
      w.machine = .ok (Fs.fsDrvFound,
        { w.machine with
          symbols := driver.symbols
          fsProp := .list c.listing
          world := { w.machine.world with vfat := c.state } }) := by
    unfold Fs.fsRoot
    simp only [hdriver]
    unfold Fs.callRoot Fs.Kernel.rootRoutine
    rw [if_neg hne, if_pos hvfat, hstart, hrootFat]
    rfl
  refine ⟨{ w with
    machine := { w.machine with
      symbols := driver.symbols
      fsProp := .list c.listing
      world := { w.machine.world with vfat := c.state } } }, ?_, ?_⟩
  · rw [e.cmdRoot_partition hzero, hfs]
    rfl
  · refine ⟨hroot, Fs.Kernel.mounted_of_symbols hsymbols, hin.place,
      ⟨c.listing, rfl, hin.nodes⟩, ?_, rfl, hnames⟩
    simp only [DriverState.moved] at hleft
    dsimp only
    omega

end Commands

/-! ## A typed session -/

/-- Typed at the keyboard, `root`, any way through the tree and `load` bring the bytes of
the file to the place in the memory that the last line names, as long as nothing is stored
into the memory in use and what is printed fits into the buffer of `kprintf`. -/
theorem typed_session_loads_file {t : DiskTree e.kernel.disk 0 lba} {size : ℕ}
    {s : Session World} {lines : List (List UInt8)} {rest : List UInt8}
    (htyped : typed s.kbd.shift s.kbd.port = (keysOf lines rest).map some)
    (hlines : ∀ keys ∈ lines, Plain size keys) (hnew : Keyboard.ENTER ∉ rest)
    (hfits : rest.length < size) {digits name number : List UInt8}
    {visits : List (List (List UInt8))} {n d : ℕ}
    (hwords : lines.map words = [rootWord, 112 :: digits] :: visits ++
      [[loadWord, [45, 102], name, number]])
    (hmounts : Mounts e lba digits s.world) (hnames : ShortNames s.world)
    (hkernel : ∃ a < 2 ^ 32, s.world.inUse a = true) (hroot : 2 ∈ t.dirs)
    (hvisit : Visit t s.world.inUse 2 visits n d) (file : Loadable t d name)
    (hclear : file.Clear s.world.inUse (e.atoi number))
    (hroom : t.blocks 2 + (n + t.blocks d) ≤ s.world.machine.world.vfat.fresh.length) :
    ∃ w', Halts (shellTurn e.builtins size) s (.ok w') ∧ InTree t s.world.inUse 0 d w' ∧
      file.Stored (e.atoi number) w' := by
  have hhalts := session_runs_lines e.builtins_follow htyped hlines hnew hfits
  obtain ⟨w₁, hmount, hat₁⟩ := hmounts.cmdRoot hnames hroot hroom
  obtain ⟨w₂, hvisits, hat₂⟩ := hvisit.runs hkernel hat₁
  have hlast : InTree t s.world.inUse (t.blocks d + 0) d w₂ := hat₂
  obtain ⟨w₃, hload, hat₃, hstored⟩ := hlast.loadFile file hkernel hclear
  refine ⟨w₃, ?_, hat₃, hstored⟩
  have hrun : lines.foldlM (runLine e.meaning) s.world = .ok w₃ := by
    rw [foldlM_runLine, hwords, List.foldlM_append, List.foldlM_cons, runWords_root, hmount,
      ok_bind, hvisits, ok_bind, List.foldlM_cons, runWords_load, hload]
    rfl
  rwa [hrun] at hhalts

/-! ## A file in a subdirectory -/

/-- The root lists the directory `A`, and that one a file `F` of five bytes. -/
def fileVolume : Volume :=
  Fat32.smallVolume [0, 0, 0x0FFFFFFF, 0x0FFFFFFF, 0, 0, 0x0FFFFFFF] fun n =>
    if n = 2 then [Fat32.dirEntry (65 :: List.replicate 10 32) 0x10 3 0]
    else if n = 3 then [Fat32.dirEntry (70 :: List.replicate 10 32) 0x20 6 5]
    else if n = 6 then [[7, 8, 9, 10, 11]] else []

/-- The header of a module `vfat` for the address 0x20000, and its table of symbols. -/
def moduleBytes : List UInt8 :=
  [0x86, 0xEF, 0xC0, 0x0D, 0, 0, 2, 0, 0x16, 0, 2, 0, 0x20, 0, 2, 0, 0x0C] ++
    ascii "vfat" ++ List.replicate 23 0 ++ [4] ++ List.replicate 15 0 ++ [5] ++
    List.replicate 15 0 ++ [6, 0, 0, 0]

/-- An ext2 file system: the inodes 2 and 3 are the root, with one record, and the module
`m`. -/
def linuxByte (n o : ℕ) : UInt8 :=
  if n = 2 then
    if o = 40 then 16 else if o = 56 then 0x53 else if o = 57 then 0xEF else 0
  else if n = 4 then (if o = 8 then 5 else 0)
  else if n = 10 then
    if o = 129 then 0x40 else if o = 168 then 20
    else if o = 257 then 0x80 else if o = 260 then 80 else if o = 296 then 21 else 0
  else if n = 40 then ([3, 0, 0, 0, 0, 4, 1, 1, 109] : List UInt8).getD o 0
  else if n = 42 then moduleBytes.getD o 0
  else 0

def fileDisk : Disk where
  readable := fun _ _ => true
  byte := fun drive n o =>
    if n < 1000 then fileVolume.disk.byte drive n o else linuxByte (n - 1000) o

/-- Two partitions, and no file that is loaded without an address. -/
def fileSurroundings : Surroundings where
  kernel := Fs.kernelOn fileDisk
  partitions :=
    { Fs.linuxPartition with
      partIn := 3
      records := [fillNode 1 ⟨0x0C, 0, 1000⟩ 0 fun _ => 0,
        fillNode 2 ⟨0x83, 1000, 4096⟩ 0 fun _ => 0] }
  scratch := ⟨Fs.idleExt2.locals 0, 0, fun o => if o = 8 then 5 else 0, 0⟩
  atoi := fun s => Atoi.atoi s 0
  moduleArea := fun loadMem a => loadMem ≤ a && a < loadMem + 0x10000
  leave := .ok
  loadfile_ne := by
    intro kind
    cases kind <;> decide

def fileTree : DiskTree fileSurroundings.kernel.disk 0 0 where
  dirs := {2, 3}
  entries := fun d =>
    if d = 2 then [⟨[65], 3, 0, directory⟩] else [⟨[70], 6, 5, regFile⟩]
  blocks := fun _ => 2
  listed := by
    rintro d (rfl | rfl)
    · exact ⟨Fat32.nestedState 2 2, (exists_read (by decide +kernel)).imp
        fun s' hread => hread.imp fun listing hread => ⟨rfl, le_rfl, hread⟩⟩
    · exact ⟨Fat32.nestedState 3 2, (exists_read (by decide +kernel)).imp
        fun s' hread => hread.imp fun listing hread => ⟨rfl, le_rfl, hread⟩⟩
  unique := by
    rintro d (rfl | rfl) <;> exact List.nodup_singleton _
  booted := ⟨fun _ => rfl, by decide +kernel⟩
  linked := by
    rintro d (rfl | rfl) <;> decide +kernel
  dot := by
    rintro d (rfl | rfl) <;> simp

def fileF : Loadable fileTree 3 [70] where
  file :=
    { chain := [6]
      size := 5
      size_lt := by decide
      nodup := by decide
      linked := by decide
      ended := by decide +kernel
      long := by decide +kernel
      readable := fun _ _ _ _ => rfl }
  entry := ⟨[70], 6, 5, regFile⟩
  listed := by simp [fileTree]
  name_eq := rfl
  start_eq := rfl
  size_eq := rfl
  no_directory := by decide
  small := by decide
  contiguous := by
    unfold FatFile.Contiguous
    decide +kernel
  ends := ⟨0, by decide, Or.inr (Or.inl (by decide +kernel))⟩

/-- `0x3000000` -/
def fileNumber : List UInt8 := [48, 120, 51, 48, 48, 48, 48, 48, 48]

/-- `root p1`, `cd A` and `load -f F 0x3000000`, with the shift keys. -/
def fileBytes : List UInt8 :=
  [0x13, 0x18, 0x18, 0x14, 0x39, 0x19, 0x02, 0x1C, 0x2E, 0x20, 0x39, 0x2A, 0x1E, 0xAA, 0x1C,
    0x26, 0x18, 0x1E, 0x20, 0x39, 0x0C, 0x21, 0x39, 0x2A, 0x21, 0xAA, 0x39, 0x0B, 0x2D, 0x04,
    0x0B, 0x0B, 0x0B, 0x0B, 0x0B, 0x0B, 0x1C]

def fileLines : List (List UInt8) :=
  [[114, 111, 111, 116, 32, 112, 49], [99, 100, 32, 65],
    [108, 111, 97, 100, 32, 45, 102, 32, 70, 32] ++ fileNumber]

def fileStart : World := ⟨Fs.treeStarted, fun _ => 0, kernelInUse⟩

theorem plain_of_fits (cmd : Builtin) {keys : List UInt8}
    (hkeys : keys.length < 80 ∧ Keyboard.ENTER ∉ keys ∧ 0 ∉ editedLine keys ∧
      (editedLine keys).any (fun c => c ≠ 32 ∧ c ≠ 9) = true ∧
      (skipBlanks (editedLine keys)).length ≤ cmdLen)
    (hcmd : builtinOf keys = some cmd) (henough : (invocationOf (words keys)).Enough cmd) :
    Plain 80 keys := by
  obtain ⟨hfits, hnew, hzero, hvisible, hshort⟩ := hkeys
  refine ⟨hfits, hnew, hzero, by simpa [Visible] using hvisible, hshort, fun cmd' hcmd' => ?_⟩
  rwa [Option.some.inj (hcmd'.symm.trans hcmd)]

theorem plain_fileLines : ∀ keys ∈ fileLines, Plain 80 keys := by
  have hroot : Plain 80 [114, 111, 111, 116, 32, 112, 49] :=
    plain_of_fits .root (by decide +kernel) (by decide +kernel)
      (show 2 ≤ _ by decide +kernel)
  have hcd : Plain 80 [99, 100, 32, 65] :=
    plain_of_fits .cd (by decide +kernel) (by decide +kernel) trivial
  have hload : Plain 80 ([108, 111, 97, 100, 32, 45, 102, 32, 70, 32] ++ fileNumber) := by
    have hfour : (words ([108, 111, 97, 100, 32, 45, 102, 32, 70, 32] ++ fileNumber)).length =
        4 := by
      decide +kernel
    refine plain_of_fits .load (by decide +kernel) (by decide +kernel) ?_
    show 2 ≤ (words _).length ∧ (_ → 3 ≤ (words _).length ∧ (_ → 4 ≤ (words _).length))
    rw [hfour]
    simp
  simp only [fileLines, List.mem_cons, List.not_mem_nil, or_false, forall_eq_or_imp,
    forall_eq]
  exact ⟨hroot, hcd, hload⟩

theorem visit_fileA (used : ℕ → Bool) : Visit fileTree used 2 [[cdWord, [65]]]
    (fileTree.blocks 2 + fileTree.blocksOf [3] + 0) 3 :=
  .cd (IsComponent.spells ⟨by decide, by decide, by decide⟩) (by decide) (by decide)
    (by decide) (.cons (by simp [DirTree.Sub, fileTree]) (.nil 3)) (.done 3)

/-- One sector is stored. -/
theorem fileF_clear {used : ℕ → Bool}
    (hfree : ∀ a, 0x3000000 ≤ a → a < 0x3000200 → used a = false) :
    fileF.Clear used (fileSurroundings.atoi fileNumber) := by
  intro a hstored
  have haddress : destination (fileSurroundings.atoi fileNumber)
      fileSurroundings.scratch.block = 0x3000000 := by decide +kernel
  rw [haddress] at hstored
  have hone : Fat32.mmapSectors 5 = 1 := by decide
  have hfree' : used (a % 2 ^ 32) = false := by
    cases hstored with
    | here turn _ inside =>
        have hlt := lt_of_lt_of_eq turn hone
        exact hfree _ (by omega) (by omega)
    | next goes _ => exact absurd (Or.inr (Or.inl (by decide +kernel))) goes
  rw [Set.mem_ofPred_eq, hfree']
  decide

theorem kernelInUse_eq_false {a : ℕ} (hkernel : 0x20000 ≤ a) (hstack : a < 0x80000 ∨ 0x2000000 ≤ a)
    (hmapped : a < 0x4000000) : kernelInUse a = false := by
  simp only [kernelInUse, Bool.or_eq_false_iff, Bool.and_eq_false_iff, decide_eq_false_iff_not]
  omega

theorem typed_session_loads_file_small :
    ∃ w', Halts (shellTurn fileSurroundings.builtins 80)
        ⟨⟨false, fileBytes⟩, fun _ => 7, emptyArrays, fileStart⟩ (.ok w') ∧
      InTree fileTree kernelInUse 0 3 w' ∧
      fileF.Stored (fileSurroundings.atoi fileNumber) w' := by
  have htyped : typed false fileBytes = (keysOf fileLines []).map some := by decide +kernel
  have hwords : fileLines.map words = [rootWord, 112 :: [49]] :: [[cdWord, [65]]] ++
      [[loadWord, [45, 102], [70], fileNumber]] := by
    decide +kernel
  have hmounts : Mounts fileSurroundings 0 [49] fileStart :=
    ⟨by decide, ⟨_, rfl, rfl⟩, by decide +kernel⟩
  have hnames : ShortNames fileStart := by
    rintro d (_ | ⟨_, ⟨⟩⟩)
    decide
  exact typed_session_loads_file htyped plain_fileLines (by simp) (by decide) hwords hmounts
    hnames ⟨0, by decide, by decide⟩ (by simp [fileTree]) (visit_fileA kernelInUse) fileF
    (fileF_clear fun a hle hlt => kernelInUse_eq_false (by omega) (by omega) (by omega))
    (by decide)

end Shell
end Janus86
