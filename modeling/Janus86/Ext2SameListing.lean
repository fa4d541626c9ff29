import Janus86.Ext2MountGeometry

/-!
# An ext2 directory read twice

A call of `init_ext2` reads the superblock, the group descriptor, the inode and the
blocks of the directory again.  What it shows is given by the records of the
blocks, and it comes back whenever a name can be stored for each of them and
`kmalloc` has the nodes.
-/

namespace Janus86

open StepMachine

namespace Ext2

variable {vol : Volume} {g g' : Globals} {n : ℕ}

/-! ## The geometry that is read -/

/-- What is used of the superblock and of the group descriptor. -/
structure SameGeometry (g g' : Globals) : Prop where
  bs : g'.bs = g.bs
  blocksPerGroup : g'.blocksPerGroup = g.blocksPerGroup
  inodesPerGroup : g'.inodesPerGroup = g.inodesPerGroup
  inodeTable : g'.inodeTable = g.inodeTable

theorem SameGeometry.inodeToLba (hsame : SameGeometry g g') (n : ℕ) :
    inodeToLba g' n = inodeToLba g n := by
  unfold Ext2.inodeToLba
  rw [hsame.bs, hsame.blocksPerGroup, hsame.inodesPerGroup, hsame.inodeTable]

theorem SameGeometry.getIndex (hsame : SameGeometry g g') (n : ℕ) :
    getIndex g' n = getIndex g n := by
  unfold Ext2.getIndex
  rw [hsame.inodesPerGroup]

theorem SameGeometry.shown (hsame : SameGeometry g g') (r : DirRecord) :
    r.shown vol g' = r.shown vol g := by
  unfold DirRecord.shown sizeFound
  rw [hsame.inodeToLba, hsame.getIndex]

/-- Two sectors from one on. -/
def twoSectors (vol : Volume) (lba : ℕ) : Buffer :=
  fun o => vol.disk.byte vol.drive (ataLba (lba + superBlockOffset) + o / 512)
    (o % 512)

/-- The globals behind a mount, with nothing left of what was there before. -/
def mountedGlobals (vol : Volume) : Globals :=
  let super := twoSectors vol vol.lba
  let bs := 1024 * 2 ^ le32 super 24 % 2 ^ 32
  let gdoffset := if bs = 4096 then 6 else 2
  ⟨super, bs, gdoffset, twoSectors vol (vol.lba + gdoffset)⟩

/-- The sectors can be read, and hold the superblock of a file system with blocks
of a size that the driver knows. -/
structure Mountable (vol : Volume) : Prop where
  readable : ∀ sector, vol.disk.readable vol.drive sector = true
  magic : le16 (twoSectors vol vol.lba) 56 = ext2Magic
  log_le : le32 (twoSectors vol vol.lba) 24 ≤ 2

/-- The sector in which the driver looks for an inode. -/
def sectorFound (vol : Volume) (g : Globals) (n : ℕ) : Buffer :=
  match inodeToLba g n with
  | .error _ => fun _ => 0
  | .ok lba => vol.sector (vol.lba + lba + superBlockOffset)

def offsetFound (g : Globals) (n : ℕ) : ℕ := 128 * (getIndex g n).toNat

def blocksFound (vol : Volume) (g : Globals) (n : ℕ) : ℕ → ℕ :=
  iBlock (sectorFound vol g n) (offsetFound g n)

theorem readInode_bytes (hread : ∀ sector, vol.disk.readable vol.drive sector = true)
    (hpos : 0 < g.inodesPerGroup) (hindex : 0 ≤ getIndex g n) (buf : Buffer) :
    ∃ buf', readInode vol vol.drive g n buf = .ok (buf', offsetFound g n) ∧
      ∀ o < 512, buf' o = sectorFound vol g n o := by
  obtain ⟨lba, hlba⟩ := exists_inodeToLba n hpos
  obtain ⟨buf', hok, hbytes⟩ := ext2RdBlock_of_readable buf (vol.lba + lba) 1 512 hread
    le_rfl
  refine ⟨buf', ?_, fun o ho => ?_⟩
  · rw [readInode, hlba, ok_bind, hok, ok_bind]
    dsimp only
    rw [if_pos hindex]
    rfl
  · rw [hbytes o ho, sectorFound, hlba, Nat.div_eq_of_lt ho, Nat.mod_eq_of_lt ho]
    rfl

theorem offsetFound_le (g : Globals) (n : ℕ) : offsetFound g n ≤ 384 := by
  have hlt : getIndex g n < 4 := Int.tmod_lt_of_pos _ (by omega)
  unfold offsetFound
  omega

theorem Mountable.holdsSuper (hmount : Mountable vol) :
    HoldsSuper vol (twoSectors vol vol.lba) := by
  have hlba : ataLba ((vol.lba + superBlockOffset) % 2 ^ 32) =
      ataLba (vol.lba + superBlockOffset) := Nat.mod_mod_of_dvd _ (by decide)
  refine ⟨fun i _ => hmount.readable _, fun o _ => ?_⟩
  rw [hlba]
  rfl

/-- The superblock and the group descriptor are read as they are on the drive. -/
theorem Mountable.geometry (hmount : Mountable vol) (superBuf groupdescr : Buffer)
    (g : Globals) :
    ∃ g₁ buf, ext2RdSuperblock vol superBuf g = .ok g₁ ∧
      ext2RdBlock vol vol.drive (vol.lba + g₁.gdoffset) 2 1024 groupdescr = .ok buf ∧
      SameGeometry (mountedGlobals vol) { g₁ with grblock := buf } := by
  obtain ⟨super', hsame, hrun⟩ := hmount.holdsSuper.rdSuperblock superBuf g
  have hlog := hmount.log_le
  rw [if_pos hmount.magic, if_pos (by omega)] at hrun
  obtain ⟨buf, hbuf, hbytes⟩ := ext2RdBlock_of_readable groupdescr
    (vol.lba + (mountedGlobals vol).gdoffset) 2 1024 hmount.readable le_rfl
  refine ⟨_, buf, hrun, hbuf, rfl, ?_, ?_, ?_⟩
  · exact le32_congr fun i _ _ => hsame i (by omega)
  · exact le32_congr fun i _ _ => hsame i (by omega)
  · exact le32_congr fun i _ _ => hbytes i (by omega)

/-! ## The records -/

/-- What a directory shows: the last node of a block is filled again from the
block behind it. -/
def listedEntries (vol : Volume) (g : Globals) : List (List DirRecord) → List Entry
  | [] => []
  | [rs] => rs.map (DirRecord.shown vol g)
  | rs :: rs' :: records =>
      (rs.map (DirRecord.shown vol g)).dropLast ++
        listedEntries vol g (rs' :: records)

/-- The nodes that are fetched for the records. -/
def nodesFor (records : List (List DirRecord)) : ℕ :=
  (records.map fun rs => rs.length - 1).sum

theorem SameGeometry.listedEntries (hsame : SameGeometry g g')
    (records : List (List DirRecord)) :
    listedEntries vol g' records = listedEntries vol g records := by
  have hshown : DirRecord.shown vol g' = DirRecord.shown vol g :=
    funext hsame.shown
  induction records with
  | nil => rfl
  | cons rs records ih =>
      cases records with
      | nil => rw [Ext2.listedEntries, Ext2.listedEntries, hshown]
      | cons rs' records =>
          rw [Ext2.listedEntries, ih, hshown]
          rfl

section Records

variable {records : List (List DirRecord)} {blocks : List ℕ}
  {s s' : Buffer × DirCursor}
  (hread : ∀ sector, vol.disk.readable vol.drive sector = true)
  (hbs : g.bs = 1024 ∨ g.bs = 2048 ∨ g.bs = 4096)
  (hpos : 0 < g.inodesPerGroup) (hle : g.inodesPerGroup ≤ 2 ^ 31)
  (hblocks : ∀ b ∈ blocks, b ≠ 0)
  (htiled : List.Forall₂
    (fun b rs => Tiled (blockBytes vol vol.drive g b) g.bs 0 rs) blocks records)
include hread hbs hpos hle hblocks htiled

theorem readDirBlocks_listing (hne : records ≠ [])
    (hfold : blocks.foldlM (fun s b => readDirBlock vol g b s) s = .ok s') :
    s'.2.listing.map FsProperties.entry =
        s.2.done.map FsProperties.entry ++ listedEntries vol g records ∧
      s'.2.fresh.length + nodesFor records = s.2.fresh.length := by
  induction htiled generalizing s with
  | nil => exact absurd rfl hne
  | @cons b rs blocks records hhead htail ih =>
      rw [List.foldlM_cons] at hfold
      obtain ⟨s₁, hblock, hfold⟩ := bind_eq_ok_iff.mp hfold
      obtain ⟨dirbuf, heq⟩ :=
        readDirBlock_eq hread hbs (hblocks b List.mem_cons_self) hhead s
      rw [heq] at hblock
      cases habsorb : absorb vol g rs s.2 with
      | error e =>
          rw [habsorb] at hblock
          cases hblock
      | ok c₁ =>
          rw [habsorb] at hblock
          cases hblock
          obtain ⟨_, hcount, hlist⟩ := absorb_ok hread hpos hle hhead.ne_nil habsorb
          have hlen := List.length_pos_of_ne_nil hhead.ne_nil
          have hone : nodesFor (rs :: records) = rs.length - 1 + nodesFor records := rfl
          cases records with
          | nil =>
              cases htail
              cases hfold
              refine ⟨hlist, ?_⟩
              rw [hone, show nodesFor [] = 0 from rfl]
              dsimp only
              omega
          | cons rs' records =>
              obtain ⟨hlist', hcount'⟩ :=
                ih (fun b hb => hblocks b (List.mem_cons_of_mem _ hb)) (by simp) hfold
              have hdone : c₁.done.map FsProperties.entry =
                  s.2.done.map FsProperties.entry ++
                    (rs.map (DirRecord.shown vol g)).dropLast := by
                have hmost := congrArg List.dropLast hlist
                rw [List.dropLast_append_of_ne_nil (by simpa using hhead.ne_nil)] at hmost
                rw [← hmost, ListCursor.listing, List.map_append, List.map_singleton,
                  List.dropLast_concat]
              refine ⟨?_, ?_⟩
              · rw [hlist', hdone, List.append_assoc]
                rfl
              · rw [hone]
                dsimp only at hcount'
                omega

theorem readDirBlocks_of_fillable (hall : ∀ r ∈ records.flatten, Fillable g r)
    (hroom : nodesFor records ≤ s.2.fresh.length) :
    ∃ s', blocks.foldlM (fun s b => readDirBlock vol g b s) s = .ok s' := by
  induction htiled generalizing s with
  | nil => exact ⟨s, rfl⟩
  | @cons b rs blocks records hhead htail ih =>
      have hone : nodesFor (rs :: records) = rs.length - 1 + nodesFor records := rfl
      obtain ⟨dirbuf, heq⟩ :=
        readDirBlock_eq hread hbs (hblocks b List.mem_cons_self) hhead s
      rw [List.flatten_cons] at hall
      have hfirst : ∀ r ∈ rs, Fillable g r :=
        fun r hr => hall r (List.mem_append_left _ hr)
      have hlater : ∀ r ∈ records.flatten, Fillable g r :=
        fun r hr => hall r (List.mem_append_right _ hr)
      obtain ⟨c₁, habsorb⟩ :=
        absorb_of_fillable hread hpos hle hfirst s.2 (by omega)
      obtain ⟨_, hcount, _⟩ := absorb_ok hread hpos hle hhead.ne_nil habsorb
      have hlen := List.length_pos_of_ne_nil hhead.ne_nil
      obtain ⟨s', hrest⟩ := ih (fun b hb => hblocks b (List.mem_cons_of_mem _ hb))
        hlater (s := (dirbuf, c₁)) (by dsimp only; omega)
      refine ⟨s', ?_⟩
      rw [List.foldlM_cons, heq, habsorb]
      exact hrest

end Records

/-! ## The call -/

/-- A directory of a volume that is mounted, as the driver finds it. -/
structure DirectoryFound (vol : Volume) (n : ℕ) where
  records : List (List DirRecord)
  records_ne : records ≠ []
  directory : Directory vol (mountedGlobals vol)
    (blocksFound vol (mountedGlobals vol) n) records
  mode : isDir (le16 (sectorFound vol (mountedGlobals vol) n)
    (offsetFound (mountedGlobals vol) n)) = true

theorem dataBlocks_congr {iblock iblock' : ℕ → ℕ}
    (hsame : ∀ k < 12, iblock' k = iblock k) : dataBlocks iblock' = dataBlocks iblock := by
  unfold dataBlocks
  congr 1
  exact List.map_congr_left fun k hk => hsame k (List.mem_range.mp hk)

/-- The same directory, with the globals of a call. -/
theorem SameGeometry.directory {iblock : ℕ → ℕ} {records : List (List DirRecord)}
    (hsame : SameGeometry g g') (hdir : Directory vol g iblock records) :
    Directory vol g' iblock records := by
  obtain ⟨hread, hsize, hpos, hle, htiled⟩ := hdir
  have hblock : blockBytes vol vol.drive g' = blockBytes vol vol.drive g := by
    unfold blockBytes
    rw [hsame.bs]
  refine ⟨hread, ?_, ?_, ?_, ?_⟩
  · rwa [hsame.bs]
  · rwa [hsame.inodesPerGroup]
  · rwa [hsame.inodesPerGroup, hsame.bs]
  · rwa [hblock, hsame.bs]

theorem initExt2_eq (hmount : Mountable vol) (found : DirectoryFound vol n)
    (hindex : 0 ≤ getIndex (mountedGlobals vol) n) (stack : Stack) (g : Globals)
    (first superBuf : FreshBlock) (fresh : List FreshBlock) :
    ∃ g₁, SameGeometry (mountedGlobals vol) g₁ ∧
      initExt2 vol stack n g (first :: superBuf :: fresh) =
        (fun s => (g₁, s.2.listing, s.2.fresh)) <$>
          (dataBlocks (blocksFound vol (mountedGlobals vol) n)).foldlM
            (fun s b => readDirBlock vol g₁ b s)
            (stack.dirbuf, ⟨⟨[], first.node, fresh⟩, stack.indbuf⟩) := by
  obtain ⟨g₁, descr, hsuper, hdescr, hsame⟩ :=
    hmount.geometry superBuf.bytes stack.groupdescr g
  have hdir := hsame.directory found.directory
  have hinode : sectorFound vol { g₁ with grblock := descr } n =
      sectorFound vol (mountedGlobals vol) n := by
    unfold sectorFound
    rw [hsame.inodeToLba]
  have hoffset : offsetFound { g₁ with grblock := descr } n =
      offsetFound (mountedGlobals vol) n := by
    unfold offsetFound
    rw [hsame.getIndex]
  obtain ⟨buf, hbuf, hbytes⟩ := readInode_bytes hmount.readable hdir.inodes_pos
    (by rwa [hsame.getIndex]) stack.inodebuff
  rw [hinode] at hbytes
  rw [hoffset] at hbuf
  have hle := offsetFound_le (mountedGlobals vol) n
  have hmode : isDir (le16 buf (offsetFound (mountedGlobals vol) n)) = true := by
    rw [le16_congr fun i _ _ => hbytes i (by omega)]
    exact found.mode
  have hblocks : dataBlocks (iBlock buf (offsetFound (mountedGlobals vol) n)) =
      dataBlocks (blocksFound vol (mountedGlobals vol) n) :=
    dataBlocks_congr fun k hk => le32_congr fun i _ _ => hbytes i (by omega)
  refine ⟨{ g₁ with grblock := descr }, hsame, ?_⟩
  have hrun : ext2RdInode vol stack n g₁ ⟨⟨[], first.node, fresh⟩, stack.indbuf⟩ =
      (fun s => ({ g₁ with grblock := descr }, s.2)) <$>
        (dataBlocks (blocksFound vol (mountedGlobals vol) n)).foldlM
          (fun s b => readDirBlock vol { g₁ with grblock := descr } b s)
          (stack.dirbuf, ⟨⟨[], first.node, fresh⟩, stack.indbuf⟩) := by
    unfold ext2RdInode
    rw [hdescr, ok_bind]
    dsimp only
    rw [hbuf, ok_bind]
    dsimp only
    rw [if_pos hmode, ext2RdDir_eq, hblocks]
    cases (dataBlocks (blocksFound vol (mountedGlobals vol) n)).foldlM
      (fun s b => readDirBlock vol { g₁ with grblock := descr } b s)
      (stack.dirbuf, ⟨⟨[], first.node, fresh⟩, stack.indbuf⟩) <;> rfl
  unfold initExt2
  simp only [takeFresh, ok_bind]
  rw [hsuper, ok_bind, hrun]
  cases (dataBlocks (blocksFound vol (mountedGlobals vol) n)).foldlM
    (fun s b => readDirBlock vol { g₁ with grblock := descr } b s)
    (stack.dirbuf, ⟨⟨[], first.node, fresh⟩, stack.indbuf⟩) <;> rfl

theorem getIndex_of_initExt2 (hmount : Mountable vol) {stack : Stack}
    {fresh : List FreshBlock} {r : Globals × List FsProperties × List FreshBlock}
    (hok : initExt2 vol stack n g fresh = .ok r) :
    0 ≤ getIndex (mountedGlobals vol) n := by
  by_contra hneg
  obtain ⟨first, _, hok⟩ := bind_eq_ok_iff.mp hok
  obtain ⟨superBuf, _, hok⟩ := bind_eq_ok_iff.mp hok
  obtain ⟨g₁, descr, hsuper, hdescr, hsame⟩ :=
    hmount.geometry superBuf.1.bytes stack.groupdescr g
  dsimp only at hok
  rw [hsuper, ok_bind] at hok
  obtain ⟨x, hinode, _⟩ := bind_eq_ok_iff.mp hok
  unfold ext2RdInode at hinode
  rw [hdescr, ok_bind] at hinode
  obtain ⟨y, hread, _⟩ := bind_eq_ok_iff.mp hinode
  rw [← hsame.getIndex] at hneg
  exact readInode_ne_ok hneg y hread

/-- The lists of two calls, with the blocks behind them. -/
structure SameInit (more : ℕ)
    (r r' : Globals × List FsProperties × List FreshBlock) : Prop where
  nodes : r'.2.1.map FsProperties.entry = r.2.1.map FsProperties.entry
  fresh : r'.2.2.length = r.2.2.length + more

/-- What a call shows, and how many nodes it takes. -/
theorem initExt2_listing (hmount : Mountable vol) (found : DirectoryFound vol n)
    {stack : Stack} {fresh : List FreshBlock}
    {r : Globals × List FsProperties × List FreshBlock}
    (hok : initExt2 vol stack n g fresh = .ok r) :
    (∀ x ∈ found.records.flatten, Fillable (mountedGlobals vol) x) ∧
      r.2.1.map FsProperties.entry =
        listedEntries vol (mountedGlobals vol) found.records ∧
      r.2.2.length + nodesFor found.records + 2 = fresh.length := by
  have hindex := getIndex_of_initExt2 hmount hok
  match fresh, hok with
  | [], hok => cases hok
  | [_], hok => cases hok
  | first :: superBuf :: fresh, hok =>
      obtain ⟨g₁, hsame, heq⟩ :=
        initExt2_eq hmount found hindex stack g first superBuf fresh
      have hdir := hsame.directory found.directory
      rw [heq] at hok
      cases hfold : (dataBlocks (blocksFound vol (mountedGlobals vol) n)).foldlM
          (fun s b => readDirBlock vol g₁ b s)
          (stack.dirbuf, (⟨⟨[], first.node, fresh⟩, stack.indbuf⟩ : DirCursor)) with
      | error e =>
          rw [hfold] at hok
          cases hok
      | ok s =>
          rw [hfold] at hok
          cases hok
          obtain ⟨hall, _⟩ := foldlM_readDirBlock_ok hdir.readable hdir.blockSize
            hdir.inodes_pos hdir.inodes_le_int (Directory.ne_zero _) hdir.tiled hfold
          obtain ⟨hlist, hcount⟩ := readDirBlocks_listing hdir.readable hdir.blockSize
            hdir.inodes_pos hdir.inodes_le_int (Directory.ne_zero _) hdir.tiled
            found.records_ne hfold
          rw [hsame.listedEntries] at hlist
          dsimp only at hlist hcount
          refine ⟨fun x hx => ⟨(hall x hx).1, ?_⟩, by simpa using hlist, ?_⟩
          · rw [← hsame.inodesPerGroup]
            exact (hall x hx).2
          · simp only [List.length_cons]
            omega

theorem initExt2_simulates (hmount : Mountable vol) (found : DirectoryFound vol n)
    {stack stack' : Stack} {fresh fresh' : List FreshBlock} {more : ℕ}
    (hfresh : fresh'.length = fresh.length + more) :
    Simulates (SameInit more) (initExt2 vol stack n g fresh)
      (initExt2 vol stack' n g' fresh') := by
  intro r hok
  obtain ⟨hall, hlist, hcount⟩ := initExt2_listing hmount found hok
  have hindex := getIndex_of_initExt2 hmount hok
  match fresh', hfresh with
  | [], hfresh =>
      simp only [List.length_nil] at hfresh
      omega
  | [_], hfresh =>
      simp only [List.length_cons, List.length_nil] at hfresh
      omega
  | first :: superBuf :: rest, hfresh =>
      obtain ⟨g₁, hsame, heq⟩ :=
        initExt2_eq hmount found hindex stack' g' first superBuf rest
      have hdir := hsame.directory found.directory
      have hall' : ∀ x ∈ found.records.flatten, Fillable g₁ x := by
        intro x hx
        refine ⟨(hall x hx).1, ?_⟩
        rw [hsame.inodesPerGroup]
        exact (hall x hx).2
      simp only [List.length_cons] at hfresh
      obtain ⟨s', hfold⟩ := readDirBlocks_of_fillable hdir.readable hdir.blockSize
        hdir.inodes_pos hdir.inodes_le_int (Directory.ne_zero _) hdir.tiled
        (s := (stack'.dirbuf, ⟨⟨[], first.node, rest⟩, stack'.indbuf⟩)) hall'
        (by dsimp only; omega)
      rw [hfold] at heq
      have hok' : initExt2 vol stack' n g' (first :: superBuf :: rest) =
          .ok (g₁, s'.2.listing, s'.2.fresh) := heq
      obtain ⟨_, hlist', hcount'⟩ := initExt2_listing hmount found hok'
      simp only [List.length_cons] at hcount'
      exact ⟨_, hok', hlist'.trans hlist.symm, by dsimp only; omega⟩

/-- A call of `init_ext2` in another state of the driver. -/
theorem initCurrent_simulates {disk : Disk} {s s' : State} {more : ℕ}
    (hmount : Mountable (s.volume disk)) (hplace : s'.place = s.place)
    (found : DirectoryFound (s.volume disk) s.place.dir)
    (hfresh : s'.fresh.length = s.fresh.length + more) :
    Simulates (SameRead more) (initCurrent disk s) (initCurrent disk s') := by
  have hvolume : s'.volume disk = s.volume disk := by
    rw [DriverState.volume, DriverState.volume, hplace]
  unfold initCurrent
  rw [hvolume, hplace]
  refine (initExt2_simulates hmount found hfresh).bind ?_
  rintro ⟨_, list, _⟩ ⟨_, list', _⟩ hsame
  refine Simulates.ok ⟨?_, rfl, hsame.fresh⟩
  unfold shownFiles
  exact congrArg _ hsame.nodes

end Ext2
end Janus86
