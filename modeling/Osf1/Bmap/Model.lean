import Osf1.Computation.PointerTree
import Osf1.Computation.Transition
import Osf1.Errno

/-!
# The block maps of a file

`bmap`, `balloc` and `ufs_ubcbmap` walk the same tree of block pointers.  Reads, writes, and the
allocator are taken from outside.  Block numbers on the disk fit their type, and so do the sizes;
what is computed from a logical block number is computed in the width that the code has for it.
-/

set_option autoImplicit false

namespace Osf1.Bmap

open Function

section Model

open Osf1.Computation

/-- SRC: ufs/dinode.h:75-76 -/
def NDADDR : ℤ := 12
def NIADDR : ℕ := 3

/-- What is read of the super block.  A pointer takes 4 bytes.
SRC: ufs/fs.h:240-257 -/
structure Fs where
  fs_bshift : ℕ
  fs_fragshift : ℕ
  fs_fsbtodb : ℕ
  fs_maxcontig : ℤ
  bshift_range : 12 ≤ fs_bshift ∧ fs_bshift ≤ 16
  fragshift_le : fs_fragshift ≤ 3

def Fs.fs_bsize (fs : Fs) : ℕ := 2 ^ fs.fs_bshift
def Fs.fs_fsize (fs : Fs) : ℕ := 2 ^ (fs.fs_bshift - fs.fs_fragshift)
def Fs.fs_frag (fs : Fs) : ℕ := 2 ^ fs.fs_fragshift
def Fs.fs_nindir (fs : Fs) : ℕ := 2 ^ (fs.fs_bshift - 2)

/-- An inode, with the indirect blocks as the buffers show them.  A pointer that is 0 is a hole. -/
structure File where
  i_size : ℕ
  i_db : ℕ → ℕ
  i_ib : ℕ → ℕ
  i_consecreads : ℤ
  i_clusterlbn : ℤ
  i_clustersz : ℤ
  block : ℕ → ℕ → ℕ

/-- Why a call does not succeed: an error number, or a panic. -/
inductive Stop
  | errno (e : ℕ)
  | panic
deriving DecidableEq

/-- What the rest of the kernel does in a call.  `bread` and `fbread` are the errors of reading a
block of the device and of the file, `bwrite` is that of writing a new indirect block, `lost` tells
that the synchronous write of a changed one fails, which the code does not look at, and `lookup` is
what `ufs_ubcrealloc` can fail of before it allocates. -/
structure Kernel where
  bread : ℕ → Option ℕ
  fbread : ℤ → Option ℕ
  bwrite : ℕ → Option ℕ
  lost : ℕ → Bool
  alloc : File → ℤ → ℕ → Except Stop ℕ
  realloccg : File → ℤ → ℕ → ℕ → Except Stop ℕ
  lookup : Option Stop
  cluster_maxcontig : ℤ
  cluster_consec_incr : ℤ

/-- An `int`, and a `daddr_t`. -/
def int32 (x : ℤ) : ℤ := x.bmod (2 ^ 32)

/-- A `long`. -/
def int64 (x : ℤ) : ℤ := x.bmod (2 ^ 64)

section Macros

variable (fs : Fs)

/-- SRC: ufs/fs.h:569-570 -/
def fsbtodb (b : ℕ) : ℕ := b <<< fs.fs_fsbtodb
def dbtofsb (b : ℕ) : ℕ := b >>> fs.fs_fsbtodb

/-- A `daddr_t` takes it.
SRC: ufs/fs.h:627 -/
def lblkno (loc : ℕ) : ℤ := int32 (loc / fs.fs_bsize)

/-- SRC: ufs/fs.h:621 -/
def blkoff (loc : ℕ) : ℕ := loc % fs.fs_bsize

/-- SRC: ufs/fs.h:633 -/
def fragroundup (size : ℕ) : ℕ := (size + fs.fs_fsize - 1) / fs.fs_fsize * fs.fs_fsize

/-- SRC: ufs/fs.h:656-659 -/
def blksize (f : File) (lbn : ℤ) : ℕ :=
  if NDADDR ≤ lbn ∨ int32 ((lbn + 1) * fs.fs_bsize) ≤ f.i_size then fs.fs_bsize
  else fragroundup fs (blkoff fs f.i_size)

end Macros

/-- Determine the number of levels of indirection.  `width` is that of `sh`.  The result is the `j`
that the loop ends with, `sh`, and the block number below that level.
SRC: ufs/ufs_bmap.c:179-188 -/
def findLevel (width : ℤ → ℤ) (nindir : ℤ) : ℕ → ℤ → ℤ → Option (ℕ × ℤ × ℤ)
  | 0, _, _ => none
  | j + 1, sh, bn =>
    let sh := width (sh * nindir)
    if bn < sh then some (j + 1, sh, bn) else findLevel width nindir j sh (int32 (bn - sh))

/-- The blocks from `ind` on that follow one another on the disk, up to the end of the array, which
is `n` further on.
SRC: ufs/ufs_bmap.c:158-170 and 222-229 -/
def contigFrom (pointer : ℕ → ℕ) (full : ℕ → Bool) (frag : ℕ) (maxcontig : ℤ) :
    ℕ → ℕ → ℤ → ℕ → ℤ
  | 0, _, contig, _ => contig
  | n + 1, ind, contig, prev =>
    if contig < maxcontig ∧ prev + frag = pointer ind ∧ full ind then
      contigFrom pointer full frag maxcontig n (ind + 1) (contig + 1) (pointer ind)
    else contig

section Calls

variable (fs : Fs) (k : Kernel)

/-- What `bmap` returns: the block, unless it is a hole, and the size of the cluster. -/
structure Bmapped where
  bnp : Option ℕ
  cluster_sz : ℤ
deriving DecidableEq

/-- Fetch through the indirect blocks.  `n` levels are left after this one.  The result is the last
indirect block with the index in it, unless there is a hole.
SRC: ufs/ufs_bmap.c:202-237 -/
def fetch (f : File) : ℕ → ℕ → ℤ → ℤ → Except Stop (Option (ℕ × ℕ))
  | n, nb, sh, bn =>
    match k.bread nb with
    | some e => .error (.errno e)
    | none =>
      let sh := sh / fs.fs_nindir
      let i := (bn / sh % fs.fs_nindir).toNat
      if f.block nb i = 0 then .ok none
      else
        match n with
        | 0 => .ok (some (nb, i))
        | n + 1 => fetch f n (f.block nb i) sh bn

/-- The largest cluster, and the number of consecutive reads after this one.
SRC: ufs/ufs_bmap.c:122-150 -/
def File.consecreads (f : File) : ℤ × ℤ :=
  let maxcontig := min fs.fs_maxcontig k.cluster_maxcontig
  (min f.i_consecreads maxcontig,
    if f.i_consecreads + k.cluster_consec_incr < maxcontig then
      f.i_consecreads + k.cluster_consec_incr
    else if f.i_consecreads < maxcontig then maxcontig
    else f.i_consecreads)

/-- `cluster` tells that the caller wants the size of the cluster. -/
def File.countRead (cluster : Bool) (f : File) : File :=
  if cluster then { f with i_consecreads := (f.consecreads fs k).2 } else f

/-- SRC: ufs/ufs_bmap.c:163-164 and 252-261 -/
def bmapOut (cluster : Bool) (bn : ℤ) (nb : ℕ) (contig : ℤ) (f : File) :
    Except Stop Bmapped × File :=
  if cluster then
    (.ok ⟨some (fsbtodb fs nb), contig⟩, { f with i_clusterlbn := bn, i_clustersz := contig })
  else (.ok ⟨some (fsbtodb fs nb), 0⟩, f)

/-- A direct block.
SRC: ufs/ufs_bmap.c:155-192 -/
def bmapDirect (cluster : Bool) (maxcontig : ℤ) (bn : ℤ) (f : File) :
    Except Stop Bmapped × File :=
  if f.i_db bn.toNat = 0 then (.ok ⟨none, 0⟩, f)
  else
    bmapOut fs cluster bn (f.i_db bn.toNat) (contigFrom f.i_db
      (fun ind => decide (blksize fs f ind = fs.fs_bsize)) fs.fs_frag maxcontig
      (NDADDR.toNat - (bn.toNat + 1)) (bn.toNat + 1) 1 (f.i_db bn.toNat)) f

/-- Behind an indirect pointer, when the level has been found.
SRC: ufs/ufs_bmap.c:204-251 -/
def bmapIndirect (cluster : Bool) (maxcontig : ℤ) (bn : ℤ) (f : File) :
    Option (ℕ × ℤ × ℤ) → Except Stop Bmapped × File
  | none => (.error (.errno EFBIG), f)
  | some (j, sh, bn') =>
    if f.i_ib (NIADDR - j) = 0 then (.ok ⟨none, 0⟩, f)
    else
      match fetch fs k f (NIADDR - j) (f.i_ib (NIADDR - j)) sh bn' with
      | .error e => (.error e, f)
      | .ok none => (.ok ⟨none, 0⟩, f)
      | .ok (some (nb, i)) =>
        bmapOut fs cluster bn (f.block nb i) (contigFrom (f.block nb) (fun _ => true) fs.fs_frag
          maxcontig (fs.fs_nindir - (i + 1)) (i + 1) 1 (f.block nb i)) f

/-- SRC: ufs/ufs_bmap.c:98-262 -/
def bmap (cluster : Bool) (f : File) (bn : ℤ) : Except Stop Bmapped × File :=
  if bn < 0 then (.error (.errno EFBIG), f)
  else if bn < NDADDR then
    bmapDirect fs cluster (f.consecreads fs k).1 bn (f.countRead fs k cluster)
  else
    bmapIndirect fs k cluster (f.consecreads fs k).1 bn (f.countRead fs k cluster)
      (findLevel int32 fs.fs_nindir NIADDR 1 (int32 (bn - NDADDR)))

/-- Read a block of a file into a buffer.  The result is the block on the disk, unless the buffer is
of a hole: `ufs_strategy` asks `bmap`.
SRC: ufs/ufs_vnops.c:2373-2382 -/
def fileBread (f : File) (lbn : ℤ) : Except Stop (Option ℕ) :=
  match k.fbread lbn with
  | some e => .error (.errno e)
  | none => (bmap fs k false f lbn).1.map Bmapped.bnp

/-- A new indirect block is cleared.
SRC: ufs/ufs_bmap.c:416-417 -/
def File.clear (f : File) (nb : ℕ) : File := { f with block := update f.block nb fun _ => 0 }

/-- A pointer of an indirect block is set, and the block is written.  Nothing is done about the
error of a synchronous write, and then the buffer is gone.
SRC: ufs/ufs_bmap.c:459-469 and 486-499 -/
def File.link (f : File) (sync : Bool) (nb i b : ℕ) : File :=
  if sync && k.lost nb then f
  else { f with block := update f.block nb (update (f.block nb) i b) }

/-- Fetch the first indirect block, allocating it if necessary, unless this is a read.
SRC: ufs/ufs_bmap.c:404-430 -/
def fetchRoot (read : Bool) (lbn : ℤ) (r : ℕ) (f : File) : Except Stop (Option ℕ) × File :=
  if f.i_ib r ≠ 0 then (.ok (some (f.i_ib r)), f)
  else if read then (.ok none, f)
  else
    match k.alloc f lbn fs.fs_bsize with
    | .error e => (.error e, f)
    | .ok newb =>
      let f := f.clear newb
      match k.bwrite newb with
      | some e => (.error (.errno e), f)
      | none => (.ok (some newb), { f with i_ib := update f.i_ib r newb })

/-- Fetch through the indirect blocks, allocating as necessary, unless this is a read.  The result
is the last indirect block with the index in it.
SRC: ufs/ufs_bmap.c:434-470 -/
def fetchAlloc (read sync : Bool) (lbn : ℤ) :
    ℕ → ℕ → ℤ → ℤ → File → Except Stop (Option (ℕ × ℕ)) × File
  | n, nb, sh, bn, f =>
    match k.bread nb with
    | some e => (.error (.errno e), f)
    | none =>
      let sh := sh / fs.fs_nindir
      let i := (bn / sh % fs.fs_nindir).toNat
      match n with
      | 0 => (.ok (some (nb, i)), f)
      | n + 1 =>
        if f.block nb i ≠ 0 then fetchAlloc read sync lbn n (f.block nb i) sh bn f
        else if read then (.ok none, f)
        else
          match k.alloc f lbn fs.fs_bsize with
          | .error e => (.error e, f)
          | .ok newb =>
            let f := f.clear newb
            match k.bwrite newb with
            | some e => (.error (.errno e), f)
            | none => fetchAlloc read sync lbn n newb sh bn (f.link k sync nb i newb)

/-- Both together, when the level has been found.
SRC: ufs/ufs_bmap.c:403-470 -/
def walk (read sync : Bool) (bn : ℤ) (f : File) :
    Option (ℕ × ℤ × ℤ) → Except Stop (Option (ℕ × ℕ)) × File
  | none => (.error (.errno EFBIG), f)
  | some (j, sh, bn') =>
    match fetchRoot fs k read bn (NIADDR - j) f with
    | (.error e, f) => (.error e, f)
    | (.ok none, f) => (.ok none, f)
    | (.ok (some nb), f) => fetchAlloc fs k read sync bn (NIADDR - j) nb sh bn' f

/-- The last block of a file that is extended to be a full one.
SRC: ufs/ufs_bmap.c:307-313 -/
def Tail (f : File) (bn nb : ℤ) : Prop :=
  nb = lblkno fs f.i_size ∧ nb < NDADDR ∧ nb < bn ∧ blksize fs f nb < fs.fs_bsize ∧ 0 < blksize fs f nb

instance (f : File) (bn nb : ℤ) : Decidable (Tail fs f bn nb) := by
  unfold Tail
  infer_instance

/-- Writing behind the last block, which is a fragment: extend it.  `realloc` yields its new place.
SRC: ufs/ufs_bmap.c:304-328 -/
def extendTail (realloc : File → ℤ → ℕ → ℕ → Except Stop ℕ) (bn : ℤ) (f : File) :
    Except Stop Unit × File :=
  let nb := lblkno fs f.i_size
  if Tail fs f bn nb then
    match realloc f nb (blksize fs f nb) fs.fs_bsize with
    | .error e => (.error e, f)
    | .ok b =>
      (.ok (), { f with
        i_size := (nb.toNat + 1) * fs.fs_bsize
        i_db := update f.i_db nb.toNat (dbtofsb fs b) })
  else (.ok (), f)

/-- The size to allocate of a direct block.
SRC: ufs/ufs_bmap.c:364-369 -/
def newSize (f : File) (bn : ℤ) (size : ℕ) : ℕ :=
  if f.i_size < (bn.toNat + 1) * fs.fs_bsize then fragroundup fs size else fs.fs_bsize

/-- `realloccg` with a buffer: the old block must be there.
SRC: ufs/ufs_alloc.c:236-240 -/
def reallocBuf (f : File) (lbn : ℤ) (osize nsize : ℕ) : Except Stop ℕ :=
  if f.i_db lbn.toNat = 0 then .error .panic
  else
    match k.fbread lbn with
    | some e => .error (.errno e)
    | none => (k.realloccg f lbn osize nsize).map (fsbtodb fs)

/-- A write to a direct block.
SRC: ufs/ufs_bmap.c:332-386 -/
def ballocDirect (bn : ℤ) (size : ℕ) (f : File) : Except Stop (Option ℕ) × File :=
  let nb := f.i_db bn.toNat
  let set (b : ℕ) : Except Stop (Option ℕ) × File :=
    (.ok (some b), { f with i_db := update f.i_db bn.toNat (dbtofsb fs b) })
  if nb ≠ 0 ∧ (bn.toNat + 1) * fs.fs_bsize ≤ f.i_size then (fileBread fs k f bn, f)
  else if nb ≠ 0 then
    let osize := fragroundup fs (blkoff fs f.i_size)
    let nsize := fragroundup fs size
    if nsize ≤ osize then
      match fileBread fs k f bn with
      | .error e => (.error e, f)
      | .ok none => (.error .panic, f)
      | .ok (some b) => set b
    else
      match reallocBuf fs k f bn osize nsize with
      | .error e => (.error e, f)
      | .ok b => set b
  else
    match k.alloc f bn (newSize fs f bn size) with
    | .error e => (.error e, f)
    | .ok newb => set (fsbtodb fs newb)

/-- Get the data block, allocating if necessary.
SRC: ufs/ufs_bmap.c:484-524 -/
def ballocData (sync clrbuf : Bool) (bn : ℤ) :
    Except Stop (Option (ℕ × ℕ)) × File → Except Stop (Option ℕ) × File
  | (.error e, f) => (.error e, f)
  | (.ok none, f) => (.ok none, f)
  | (.ok (some (nb, i)), f) =>
    if f.block nb i = 0 then
      match k.alloc f bn fs.fs_bsize with
      | .error e => (.error e, f)
      | .ok newb => (.ok (some (fsbtodb fs newb)), f.link k sync nb i newb)
    else if clrbuf then (fileBread fs k f bn, f)
    else (.ok (some (fsbtodb fs (f.block nb i))), f)

/-- The result is the block that the buffer is for.
SRC: ufs/ufs_bmap.c:269-525 -/
def balloc (sync clrbuf : Bool) (bn : ℤ) (size : ℕ) (f : File) : Except Stop (Option ℕ) × File :=
  if bn < 0 then (.error (.errno EFBIG), f)
  else
    match extendTail fs (reallocBuf fs k) bn f with
    | (.error e, f) => (.error e, f)
    | (.ok (), f) =>
      if bn < NDADDR then ballocDirect fs k bn size f
      else
        ballocData fs k sync clrbuf bn (walk fs k false sync bn f
          (findLevel int32 fs.fs_nindir NIADDR 1 (int32 (bn - NDADDR))))

/-- The new place of a fragment whose pages are in memory.
SRC: ufs/ufs_bmap.c:790-905 -/
def ufs_ubcrealloc (f : File) (lbn : ℤ) (osize newsize : ℕ) : Except Stop ℕ :=
  match k.lookup with
  | some e => .error e
  | none =>
    if f.i_db lbn.toNat = 0 then .error .panic
    else (k.realloccg f lbn osize newsize).map (fsbtodb fs)

/-- A direct block.
SRC: ufs/ufs_bmap.c:594-660 -/
def ubcDirect (read : Bool) (bn : ℤ) (size : ℕ) (f : File) :
    Except Stop (Option ℕ × Bool) × File :=
  let nb := f.i_db bn.toNat
  if nb ≠ 0 ∧ (bn.toNat + 1) * fs.fs_bsize ≤ f.i_size then
    (.ok (some (fsbtodb fs nb), false), f)
  else if read then (.ok (if nb = 0 then none else some (fsbtodb fs nb), false), f)
  else if nb ≠ 0 then
    let osize := fragroundup fs (blkoff fs f.i_size)
    let nsize := fragroundup fs size
    if nsize ≤ osize then (.ok (some (fsbtodb fs nb), false), f)
    else
      match ufs_ubcrealloc fs k f bn osize nsize with
      | .error e => (.error e, f)
      | .ok b =>
        (.ok (some b, false), { f with
          i_db := update f.i_db bn.toNat (dbtofsb fs b)
          i_size := f.i_size + (nsize - osize) })
  else
    match k.alloc f bn (newSize fs f bn size) with
    | .error e => (.error e, f)
    | .ok newb =>
      (.ok (some (fsbtodb fs newb), true), { f with
        i_db := update f.i_db bn.toNat (dbtofsb fs (fsbtodb fs newb)) })

/-- Get the data block, allocating if necessary, unless this is a read.
SRC: ufs/ufs_bmap.c:753-787 -/
def ubcData (read sync : Bool) (bn : ℤ) :
    Except Stop (Option (ℕ × ℕ)) × File → Except Stop (Option ℕ × Bool) × File
  | (.error e, f) => (.error e, f)
  | (.ok none, f) => (.ok (none, false), f)
  | (.ok (some (nb, i)), f) =>
    if f.block nb i = 0 then
      if read then (.ok (none, false), f)
      else
        match k.alloc f bn fs.fs_bsize with
        | .error e => (.error e, f)
        | .ok newb => (.ok (some (fsbtodb fs newb), true), f.link k sync nb i newb)
    else (.ok (some (fsbtodb fs (f.block nb i)), false), f)

/-- The result is the block, unless it is a hole, and whether it has been allocated.
SRC: ufs/ufs_bmap.c:527-788 -/
def ufs_ubcbmap (read sync : Bool) (bn : ℤ) (size : ℕ) (f : File) :
    Except Stop (Option ℕ × Bool) × File :=
  if bn < 0 then (.error (.errno EFBIG), f)
  else
    match if read then (.ok (), f) else extendTail fs (ufs_ubcrealloc fs k) bn f with
    | (.error e, f) => (.error e, f)
    | (.ok (), f) =>
      if bn < NDADDR then ubcDirect fs k read bn size f
      else
        ubcData fs k read sync bn (walk fs k read sync bn f
          (findLevel int64 fs.fs_nindir NIADDR 1 (int32 (bn - NDADDR))))

end Calls

end Model

/-!
## The place of a logical block

The levels and indices that the calls compute are a path in the tree of block pointers. With three levels
whose sizes fit the type of `sh` they reach every block.
-/

section Levels

open Osf1.Computation

/-- The pointers that an inode holds. -/
inductive Root
  | db (i : ℕ)
  | ib (i : ℕ)
deriving DecidableEq

/-- Below the first indirect pointer there is one level of pointers, and so on. -/
def shape (fs : Fs) : ForestShape Root where
  depth
    | .db _ => 0
    | .ib i => i + 1
  width := fs.fs_nindir

def File.forest (f : File) : Forest Root where
  root
    | .db i => f.i_db i
    | .ib i => f.i_ib i
  node := f.block

/-- The place is one for a block of the file, not for an indirect one. -/
def Leaf (fs : Fs) (x : Root × List ℕ) : Prop := (shape fs).Place x ∧ x.2.length = (shape fs).depth x.1

/-- The indices on the way to block `m` below a pointer, through `n` levels. -/
def indices (N m : ℕ) : ℕ → List ℕ
  | 0 => []
  | n + 1 => m / N ^ n % N :: indices N m n

/-- Where the pointer to a logical block is, as it is computed in some width. -/
def placeOf (fs : Fs) (width : ℤ → ℤ) (bn : ℤ) : Option (Root × List ℕ) :=
  if bn < 0 then none
  else if bn < NDADDR then some (.db bn.toNat, [])
  else
    (findLevel width fs.fs_nindir NIADDR 1 (int32 (bn - NDADDR))).map fun x =>
      (.ib (NIADDR - x.1), indices fs.fs_nindir x.2.2.toNat (NIADDR - x.1 + 1))

section Indices

variable {N m m' n : ℕ}

@[simp] theorem length_indices : (indices N m n).length = n := by
  induction n with
  | zero => rfl
  | succ n ih => simp [indices, ih]

theorem indices_lt (hN : 0 < N) : ∀ i ∈ indices N m n, i < N := by
  induction n with
  | zero => simp [indices]
  | succ n ih =>
    intro i hi
    rw [indices, List.mem_cons] at hi
    rcases hi with rfl | hi
    · exact Nat.mod_lt _ hN
    · exact ih i hi

theorem indices_succ : indices N m (n + 1) = indices N (m / N) n ++ [m % N] := by
  induction n with
  | zero => simp [indices]
  | succ n ih =>
    rw [indices, ih, indices, Nat.div_div_eq_div_mul, ← pow_succ', List.cons_append]

theorem indices_injective (h : indices N m n = indices N m' n) : m % N ^ n = m' % N ^ n := by
  induction n with
  | zero => simp [Nat.mod_one]
  | succ n ih =>
    rw [indices, indices, List.cons.injEq] at h
    rw [Nat.mod_pow_succ, Nat.mod_pow_succ, ih h.2, h.1]

theorem indices_add {j : ℕ} (h : m % N + j < N) :
    indices N (m + j) (n + 1) = indices N (m / N) n ++ [m % N + j] := by
  have hN : 0 < N := by omega
  have hm : m + j = N * (m / N) + (m % N + j) := by
    have := Nat.div_add_mod m N
    omega
  have hdiv : (m + j) / N = m / N := by
    rw [hm, Nat.mul_add_div hN, Nat.div_eq_of_lt h, Nat.add_zero]
  have hmod : (m + j) % N = m % N + j := by rw [hm, Nat.mul_add_mod, Nat.mod_eq_of_lt h]
  rw [indices_succ, hdiv, hmod]

end Indices

section Widths

variable (fs : Fs)

/-- The sizes of the first two levels fit, and that of the third does or is 0. -/
structure Fits (width : ℤ → ℤ) (N : ℤ) : Prop where
  first : width N = N
  second : width (N * N) = N * N
  third : width (N * N * N) = N * N * N ∨ width (N * N * N) = 0

theorem nindir_eq : fs.fs_nindir = 2 ^ 10 ∨ fs.fs_nindir = 2 ^ 11 ∨ fs.fs_nindir = 2 ^ 12 ∨
    fs.fs_nindir = 2 ^ 13 ∨ fs.fs_nindir = 2 ^ 14 := by
  have hrange := fs.bshift_range
  have hshift : fs.fs_bshift = 12 ∨ fs.fs_bshift = 13 ∨ fs.fs_bshift = 14 ∨ fs.fs_bshift = 15 ∨
      fs.fs_bshift = 16 := by omega
  unfold Fs.fs_nindir
  rcases hshift with h | h | h | h | h <;> simp [h]

theorem nindir_pos : 0 < fs.fs_nindir := by
  rcases nindir_eq fs with h | h | h | h | h <;> rw [h] <;> decide

theorem fits_int32 : Fits int32 fs.fs_nindir := by
  rcases nindir_eq fs with h | h | h | h | h <;> rw [h] <;>
    exact ⟨by decide, by decide, by decide⟩

theorem int64_third : int64 (fs.fs_nindir * fs.fs_nindir * fs.fs_nindir) =
    fs.fs_nindir * fs.fs_nindir * fs.fs_nindir := by
  rcases nindir_eq fs with h | h | h | h | h <;> rw [h] <;> decide

theorem fits_int64 : Fits int64 fs.fs_nindir := by
  refine ⟨?_, ?_, .inl (int64_third fs)⟩ <;>
    rcases nindir_eq fs with h | h | h | h | h <;> rw [h] <;> decide

theorem int32_third : int32 (fs.fs_nindir * fs.fs_nindir * fs.fs_nindir) =
    if fs.fs_nindir = 1024 then (fs.fs_nindir : ℤ) * fs.fs_nindir * fs.fs_nindir else 0 := by
  rcases nindir_eq fs with h | h | h | h | h <;> rw [h] <;> decide

end Widths

theorem int32_of_range {x : ℤ} (h : -2 ^ 31 ≤ x) (h' : x < 2 ^ 31) : int32 x = x := by
  unfold int32
  rw [Int.bmod_def]
  split <;> omega

section FindLevel

variable {width : ℤ → ℤ} {N m : ℤ}

theorem findLevel_eq (hfits : Fits width N) (hN : 0 ≤ N) (hm : 0 ≤ m) (hm' : m < 2 ^ 31) :
    findLevel width N NIADDR 1 m =
      if m < N then some (3, N, m)
      else if m - N < N * N then some (2, N * N, m - N)
      else if m - N - N * N < width (N * N * N) then some (1, width (N * N * N), m - N - N * N)
      else none := by
  unfold NIADDR
  rw [findLevel, one_mul, hfits.first]
  by_cases h1 : m < N
  · simp only [if_pos h1]
  have hint1 : int32 (m - N) = m - N := int32_of_range (by omega) (by omega)
  simp only [if_neg h1, hint1]
  rw [findLevel, hfits.second]
  by_cases h2 : m - N < N * N
  · simp only [if_pos h2]
  have hsq : 0 ≤ N * N := mul_nonneg hN hN
  have hint2 : int32 (m - N - N * N) = m - N - N * N := int32_of_range (by omega) (by omega)
  simp only [if_neg h2, hint2]
  rw [findLevel]
  by_cases h3 : m - N - N * N < width (N * N * N)
  · simp only [if_pos h3]
  · simp only [if_neg h3]
    rfl

end FindLevel

/-- The number of the first block behind an indirect pointer. -/
def levelStart (N : ℕ) : ℕ → ℕ
  | 0 => 0
  | d + 1 => levelStart N d + N ^ (d + 1)

theorem findLevel_some {width : ℤ → ℤ} {N : ℕ} {m bn' sh : ℤ} {j : ℕ} (hfits : Fits width N)
    (hm : 0 ≤ m) (hm' : m < 2 ^ 31) (h : findLevel width N NIADDR 1 m = some (j, sh, bn')) :
    ∃ d r : ℕ, j = 3 - d ∧ d < 3 ∧ sh = (N ^ (d + 1) : ℕ) ∧ bn' = r ∧ r < N ^ (d + 1) ∧
      m = levelStart N d + r := by
  rw [findLevel_eq hfits (Int.natCast_nonneg N) hm hm'] at h
  have hsq : (N : ℤ) * N = (N ^ 2 : ℕ) := by push_cast; ring
  have hcube : (N : ℤ) * N * N = (N ^ 3 : ℕ) := by push_cast; ring
  rw [hcube, hsq] at h
  have hthird := hfits.third
  rw [hcube] at hthird
  split at h
  · cases h
    refine ⟨0, m.toNat, rfl, by omega, by simp, by omega, ?_, ?_⟩
    · simp only [zero_add, pow_one]
      omega
    · simp only [levelStart]
      omega
  · split at h
    · cases h
      refine ⟨1, (m - N).toNat, rfl, by omega, rfl, by omega, ?_, ?_⟩
      · simp only [Nat.reduceAdd]
        omega
      · simp only [levelStart, zero_add, pow_one]
        omega
    · split at h
      · rename_i h1 h2 h3
        rcases hthird with hthird | hthird
        · rw [hthird] at h h3
          cases h
          refine ⟨2, (m - N - (N ^ 2 : ℕ)).toNat, rfl, by omega, rfl, by omega, ?_, ?_⟩
          · simp only [Nat.reduceAdd]
            omega
          · simp only [levelStart, zero_add, pow_one, Nat.reduceAdd]
            omega
        · rw [hthird] at h3
          omega
      · cases h

section Place

variable {fs : Fs} {width : ℤ → ℤ} {bn bn' : ℤ} {x : Root × List ℕ}

theorem NDADDR_eq : NDADDR = 12 := rfl

theorem int32_sub (hbn : bn < 2 ^ 31) (hdirect : ¬bn < NDADDR) :
    int32 (bn - NDADDR) = bn - NDADDR ∧ 0 ≤ bn - NDADDR ∧ bn - NDADDR < 2 ^ 31 := by
  rw [NDADDR_eq] at hdirect ⊢
  exact ⟨int32_of_range (by omega) (by omega), by omega, by omega⟩

section

variable (hfits : Fits width fs.fs_nindir)
include hfits

theorem placeOf_cases (hbn : bn < 2 ^ 31) (h : placeOf fs width bn = some x) :
    (∃ i : ℕ, bn = i ∧ bn < NDADDR ∧ x = (.db i, [])) ∨
      ∃ d r : ℕ, d < 3 ∧ r < fs.fs_nindir ^ (d + 1) ∧
        bn = NDADDR + levelStart fs.fs_nindir d + r ∧
        x = (.ib d, indices fs.fs_nindir r (d + 1)) := by
  unfold placeOf at h
  split at h
  · cases h
  split at h
  · rename_i hdirect
    cases h
    exact .inl ⟨bn.toNat, by omega, hdirect, rfl⟩
  · rename_i hdirect
    obtain ⟨⟨j, sh, b⟩, hlevel, rfl⟩ := Option.map_eq_some_iff.mp h
    obtain ⟨hint, hbn0, hbn1⟩ := int32_sub hbn hdirect
    rw [hint] at hlevel
    obtain ⟨d, r, rfl, hd, -, rfl, hr, hsum⟩ := findLevel_some hfits hbn0 hbn1 hlevel
    have hsub : NIADDR - (3 - d) = d := by
      unfold NIADDR
      omega
    refine .inr ⟨d, r, hd, hr, by omega, ?_⟩
    simp only [hsub, Int.toNat_natCast]

theorem placeOf_leaf (hbn : bn < 2 ^ 31) (h : placeOf fs width bn = some x) : Leaf fs x := by
  obtain ⟨i, -, -, rfl⟩ | ⟨d, r, -, -, -, rfl⟩ := placeOf_cases hfits hbn h
  · exact ⟨⟨Nat.zero_le _, by simp⟩, rfl⟩
  · exact ⟨⟨length_indices.le, indices_lt (nindir_pos fs)⟩, length_indices⟩

theorem placeOf_injective (hbn : bn < 2 ^ 31) (hbn' : bn' < 2 ^ 31)
    (h : placeOf fs width bn = some x) (h' : placeOf fs width bn' = some x) : bn = bn' := by
  obtain ⟨i, hi, -, rfl⟩ | ⟨d, r, -, hr, hsum, rfl⟩ := placeOf_cases hfits hbn h
  · obtain ⟨i', hi', -, heq⟩ | ⟨d', r', -, -, -, heq⟩ := placeOf_cases hfits hbn' h'
    · cases heq
      omega
    · cases heq
  · obtain ⟨i', -, -, heq⟩ | ⟨d', r', -, hr', hsum', heq⟩ := placeOf_cases hfits hbn' h'
    · cases heq
    · simp only [Prod.mk.injEq, Root.ib.injEq] at heq
      obtain ⟨rfl, hpath⟩ := heq
      have hmod := indices_injective hpath
      rw [Nat.mod_eq_of_lt hr, Nat.mod_eq_of_lt hr'] at hmod
      omega

end

theorem findLevel_int32 (hbn : bn < 2 ^ 31) (hdirect : ¬bn < NDADDR)
    (h : fs.fs_nindir = 1024 ∨ bn < NDADDR + levelStart fs.fs_nindir 2) :
    findLevel int32 fs.fs_nindir NIADDR 1 (int32 (bn - NDADDR)) =
      findLevel int64 fs.fs_nindir NIADDR 1 (int32 (bn - NDADDR)) := by
  obtain ⟨hint, hm, hm'⟩ := int32_sub hbn hdirect
  rw [hint, findLevel_eq (fits_int32 fs) (Int.natCast_nonneg _) hm hm',
    findLevel_eq (fits_int64 fs) (Int.natCast_nonneg _) hm hm', int32_third, int64_third]
  rcases h with h | h
  · rw [if_pos h]
  · have hsq : (fs.fs_nindir : ℤ) * fs.fs_nindir = (fs.fs_nindir ^ 2 : ℕ) := by
      push_cast
      ring
    simp only [levelStart, zero_add, pow_one, Nat.reduceAdd] at h
    by_cases h1 : bn - NDADDR < fs.fs_nindir
    · rw [if_pos h1, if_pos h1]
    · have h2 : bn - NDADDR - fs.fs_nindir < (fs.fs_nindir : ℤ) * fs.fs_nindir := by
        omega
      rw [if_neg h1, if_neg h1, if_pos h2, if_pos h2]

theorem findLevel_third (hbn : bn < 2 ^ 31) (h : fs.fs_nindir ≠ 1024)
    (hbehind : NDADDR + levelStart fs.fs_nindir 2 ≤ bn) :
    findLevel int32 fs.fs_nindir NIADDR 1 (int32 (bn - NDADDR)) = none ∧
      (findLevel int64 fs.fs_nindir NIADDR 1 (int32 (bn - NDADDR))).isSome := by
  have hdirect : ¬bn < NDADDR := by omega
  obtain ⟨hint, hm, hm'⟩ := int32_sub hbn hdirect
  have hsq : (fs.fs_nindir : ℤ) * fs.fs_nindir = (fs.fs_nindir ^ 2 : ℕ) := by
    push_cast
    ring
  simp only [levelStart, zero_add, pow_one, Nat.reduceAdd] at hbehind
  have h1 : ¬bn - NDADDR < fs.fs_nindir := by omega
  have h2 : ¬bn - NDADDR - fs.fs_nindir < (fs.fs_nindir : ℤ) * fs.fs_nindir := by
    omega
  -- Nothing in a `daddr_t` is as large as the third size.
  have hlarge : (2 : ℤ) ^ 33 ≤ fs.fs_nindir * fs.fs_nindir * fs.fs_nindir := by
    rcases nindir_eq fs with hN | hN | hN | hN | hN
    · exact absurd hN h
    all_goals
      rw [hN]
      decide
  have h3 : ¬bn - NDADDR - fs.fs_nindir - (fs.fs_nindir : ℤ) * fs.fs_nindir < 0 := by omega
  have h4 : bn - NDADDR - fs.fs_nindir - (fs.fs_nindir : ℤ) * fs.fs_nindir <
      fs.fs_nindir * fs.fs_nindir * fs.fs_nindir := by omega
  rw [hint, findLevel_eq (fits_int32 fs) (Int.natCast_nonneg _) hm hm',
    findLevel_eq (fits_int64 fs) (Int.natCast_nonneg _) hm hm', int32_third, int64_third, if_neg h,
    if_neg h1, if_neg h2, if_neg h3, if_neg h1, if_neg h2, if_pos h4]
  exact ⟨rfl, rfl⟩

theorem placeOf_int32 (hbn : bn < 2 ^ 31) (h : fs.fs_nindir = 1024 ∨ bn < NDADDR + levelStart fs.fs_nindir 2) :
    placeOf fs int32 bn = placeOf fs int64 bn := by
  unfold placeOf
  by_cases hneg : bn < 0
  · rw [if_pos hneg, if_pos hneg]
  by_cases hdirect : bn < NDADDR
  · rw [if_neg hneg, if_neg hneg, if_pos hdirect, if_pos hdirect]
  rw [if_neg hneg, if_neg hneg, if_neg hdirect, if_neg hdirect, findLevel_int32 hbn hdirect h]

end Place

end Levels

end Osf1.Bmap
