import Mathlib.Algebra.Order.BigOperators.Group.List
import Mathlib.Data.List.Pairwise
import DVP.Lib.Tiling
import DVP.Sosal.Heap.Basic

/-!
# The data region of a heap

What the blocks of a heap make of its data region, whatever lists they are on. `Arena` has what
never changes: the alignment of the heap and the place of its data region. `Region` says that
blocks share out the region of an arena. It is kept by splitting a block at an aligned place
(`Region.split`) and by joining two that touch (`Region.join`), and so long as each block has
bytes there are at most `maxBlocks` of them (`Region.length_le`).
-/

namespace DVP.Sosal

/-- The alignment of a heap and its data region, of `maxBlocks * align` bytes. The address after
the last one is an address, as C has it for every object. -/
structure Arena (a : Arch) where
  align : Nat
  base : Nat
  maxBlocks : Nat
  exponent : ∃ k, 5 ≤ k ∧ k ≤ 12 ∧ align = 2 ^ k
  inSpace : base + maxBlocks * align < a.size

namespace Arena

variable {a : Arch} (arena : Arena a)

/-- The bytes of the data region. -/
def total : Nat := arena.maxBlocks * arena.align

theorem total_lt : arena.total < a.size := by
  have hspace := arena.inSpace
  rw [total]
  omega

theorem align_ge : 32 ≤ arena.align := by
  obtain ⟨k, hk, -, halign⟩ := arena.exponent
  rw [halign]
  exact Nat.pow_le_pow_right (n := 2) (by omega) hk

theorem align_pos : 0 < arena.align := by
  have hge := arena.align_ge
  omega

/-- The alignment is a multiple of `32`. -/
theorem dvd_align : 32 ∣ arena.align := by
  obtain ⟨k, hk, -, halign⟩ := arena.exponent
  rw [halign]
  exact pow_dvd_pow 2 hk

/-- The alignment divides the number of values of `size_t`. -/
theorem align_dvd : arena.align ∣ a.size := by
  obtain ⟨k, -, hk, halign⟩ := arena.exponent
  have hbits : 32 ≤ a.bits := by cases a <;> decide
  rw [halign]
  exact pow_dvd_pow 2 (by omega)

end Arena

/-- The addresses of a block. -/
def Block.span (b : Block) : Span := ⟨b.data, b.size⟩

variable {a : Arch} {arena : Arena a} {bs cs : List Block} {b : Block}

/-- The blocks share out the data region: each lies in it at an aligned offset, and has an aligned
size, and each address of the region is in one block. -/
structure Region (arena : Arena a) (bs : List Block) : Prop where
  within : ∀ b ∈ bs, arena.base ≤ b.data ∧ b.data + b.size ≤ arena.base + arena.total
  aligned : ∀ b ∈ bs, arena.align ∣ b.data - arena.base ∧ arena.align ∣ b.size
  tiles : Tiles arena.base arena.total (bs.map Block.span)
  bytes : (bs.map Block.size).sum = arena.total

namespace Region

/-- The lists the blocks are on, and their order, do not matter. -/
theorem perm (h : Region arena bs) (hperm : bs.Perm cs) : Region arena cs where
  within b hb := h.within b (hperm.mem_iff.mpr hb)
  aligned b hb := h.aligned b (hperm.mem_iff.mpr hb)
  tiles := h.tiles.perm (hperm.map _)
  bytes := by rw [← h.bytes, (hperm.map _).sum_eq]

/-- A block that takes the whole region. -/
theorem whole (arena : Arena a) : Region arena [⟨arena.total, arena.base⟩] where
  within := by simp
  aligned := by simp [Arena.total]
  tiles := tiles_singleton ⟨arena.base, arena.total⟩
  bytes := by simp

/-- A block is split in two at an aligned place. -/
theorem split {m n d : Nat} (h : Region arena (⟨m + n, d⟩ :: bs)) (hm : arena.align ∣ m) :
    Region arena (⟨m, d⟩ :: ⟨n, d + m⟩ :: bs) where
  within := by
    obtain ⟨hbase, htotal⟩ := h.within _ List.mem_cons_self
    dsimp only at hbase htotal
    simp only [List.forall_mem_cons]
    refine ⟨⟨hbase, by omega⟩, ⟨by omega, by omega⟩, fun b hb => ?_⟩
    exact h.within b (List.mem_cons_of_mem _ hb)
  aligned := by
    obtain ⟨hbase, -⟩ := h.within _ List.mem_cons_self
    obtain ⟨hdata, hsize⟩ := h.aligned _ List.mem_cons_self
    dsimp only at hbase hdata hsize
    simp only [List.forall_mem_cons]
    refine ⟨⟨hdata, hm⟩, ⟨?_, (Nat.dvd_add_right hm).mp hsize⟩, fun b hb => ?_⟩
    · rw [show d + m - arena.base = d - arena.base + m by omega]
      exact Nat.dvd_add hdata hm
    · exact h.aligned b (List.mem_cons_of_mem _ hb)
  tiles := Tiles.split_iff.mpr h.tiles
  bytes := by
    have hbytes := h.bytes
    simp only [List.map_cons, List.sum_cons] at *
    omega

/-- Two blocks that touch are joined. -/
theorem join {m n d : Nat} (h : Region arena (⟨m, d⟩ :: ⟨n, d + m⟩ :: bs)) :
    Region arena (⟨m + n, d⟩ :: bs) where
  within := by
    obtain ⟨hbase, -⟩ := h.within ⟨m, d⟩ (by simp)
    obtain ⟨-, htotal⟩ := h.within ⟨n, d + m⟩ (by simp)
    dsimp only at hbase htotal
    simp only [List.forall_mem_cons]
    refine ⟨⟨hbase, by omega⟩, fun b hb => ?_⟩
    exact h.within b (by simp [hb])
  aligned := by
    obtain ⟨hdata, hm⟩ := h.aligned ⟨m, d⟩ (by simp)
    obtain ⟨-, hn⟩ := h.aligned ⟨n, d + m⟩ (by simp)
    simp only [List.forall_mem_cons]
    refine ⟨⟨hdata, Nat.dvd_add hm hn⟩, fun b hb => ?_⟩
    exact h.aligned b (by simp [hb])
  tiles := Tiles.split_iff.mp h.tiles
  bytes := by
    have hbytes := h.bytes
    simp only [List.map_cons, List.sum_cons] at *
    omega

/-- The blocks of two nodes have no address in common. -/
theorem apart {ι : Type} {blk : ι → Block} {ps : List ι} {p q : ι} (h : Region arena (ps.map blk))
    (hp : p ∈ ps) (hq : q ∈ ps) (hpq : p ≠ q) : (blk p).span.Apart (blk q).span := by
  have hpairwise := h.tiles.pairwise_apart
  rw [List.map_map, List.pairwise_map] at hpairwise
  have hsymm : Std.Symm fun p q => ((Block.span ∘ blk) p).Apart ((Block.span ∘ blk) q) :=
    ⟨fun p q hapart x hx => hapart x hx.symm⟩
  exact hpairwise.forall hp hq hpq

/-- Of the blocks of two nodes, one ends before the other starts. -/
theorem le_or_le {ι : Type} {blk : ι → Block} {ps : List ι} {p q : ι} (h : Region arena (ps.map blk))
    (hpos : ∀ p ∈ ps, 0 < (blk p).size) (hp : p ∈ ps) (hq : q ∈ ps) (hpq : p ≠ q) :
    (blk p).data + (blk p).size ≤ (blk q).data ∨ (blk q).data + (blk q).size ≤ (blk p).data :=
  (h.apart hp hq hpq).le_or_le (hpos p hp) (hpos q hq)

/-- The end of a block is an address. -/
theorem end_lt (h : Region arena bs) (hb : b ∈ bs) : b.data + b.size < a.size := by
  have hspace := arena.inSpace
  have hwithin := (h.within b hb).2
  rw [Arena.total] at hwithin
  omega

/-- A block that has bytes has at least `align` of them. -/
theorem align_le (h : Region arena bs) (hb : b ∈ bs) (hpos : 0 < b.size) :
    arena.align ≤ b.size :=
  Nat.le_of_dvd hpos (h.aligned b hb).2

/-- Blocks of at least `n` bytes have at least `n` bytes each. -/
theorem mul_length_le_sum {n : Nat} (hbs : ∀ b ∈ bs, n ≤ b.size) :
    n * bs.length ≤ (bs.map Block.size).sum := by
  induction bs with
  | nil => simp
  | cons b bs ih =>
    obtain ⟨hb, hrest⟩ := List.forall_mem_cons.mp hbs
    have hle := ih hrest
    simp only [List.length_cons, List.map_cons, List.sum_cons, Nat.mul_add, Nat.mul_one]
    omega

/-- If each block has bytes, then `align` bytes for each block, and the rest of any one of them, are
in the region. -/
theorem align_mul_length_le (h : Region arena bs) (hpos : ∀ c ∈ bs, 0 < c.size) (hb : b ∈ bs) :
    arena.align * bs.length + (b.size - arena.align) ≤ arena.total := by
  obtain ⟨xs, ys, rfl⟩ := List.append_of_mem hb
  have hle := h.align_le hb (hpos b hb)
  have hge : ∀ c ∈ xs ++ b :: ys, arena.align ≤ c.size := fun c hc => h.align_le hc (hpos c hc)
  have hxs := mul_length_le_sum fun c hc => hge c (List.mem_append_left _ hc)
  have hys := mul_length_le_sum fun c hc =>
    hge c (List.mem_append_right _ (List.mem_cons_of_mem _ hc))
  rw [← h.bytes]
  simp only [List.length_append, List.length_cons, List.map_append, List.map_cons,
    List.sum_append, List.sum_cons, Nat.mul_add, Nat.mul_one]
  omega

/-- If each block has bytes and there are `maxBlocks` blocks, none has more than `align`. -/
theorem size_eq_align (h : Region arena bs) (hpos : ∀ c ∈ bs, 0 < c.size)
    (hlength : bs.length = arena.maxBlocks) (hb : b ∈ bs) : b.size = arena.align := by
  have hge := h.align_le hb (hpos b hb)
  have hle := h.align_mul_length_le hpos hb
  rw [hlength, Arena.total, Nat.mul_comm] at hle
  omega

end Region

end DVP.Sosal
