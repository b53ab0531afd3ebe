import Mathlib.Data.List.Basic

/-!
# Windows

A walk over places takes some of them together. At each place it comes to, it takes a window of the
size that is given for this place, and goes on after the window.

* `flatMap_starts`: the windows have every place once, in order;
* `foldl_windows`: if what is done with a window is what is done with some of its places one after
  the other, the whole walk is done place by place.
-/

namespace Windows

variable {size : Nat → Nat} {stop n fuel : Nat} {S : Type}

/-- The places where windows start, from `n` on. -/
def starts (size : Nat → Nat) (stop : Nat) : Nat → Nat → List Nat
  | 0, _ => []
  | fuel + 1, n => if n < stop then n :: starts size stop fuel (n + size n) else []

/-- The places of a window. -/
def places (size : Nat → Nat) (n : Nat) : List Nat := List.range' n (size n)

/-- No window is empty or goes past the end. -/
structure Fits (size : Nat → Nat) (stop : Nat) : Prop where
  pos : ∀ n, 0 < size n
  le : ∀ n < stop, n + size n ≤ stop

/-- The windows have every place once. -/
theorem Fits.flatMap_starts (h : Fits size stop) (hn : n ≤ stop) (hfuel : stop ≤ n + fuel) :
    (starts size stop fuel n).flatMap (places size) = List.range' n (stop - n) := by
  induction fuel generalizing n with
  | zero =>
    have hnone : stop - n = 0 := by omega
    rw [hnone]
    rfl
  | succ fuel ih =>
    have hpos := h.pos n
    rw [starts]
    split
    case isTrue hlt =>
      have hle := h.le n hlt
      have hrest : stop - n = size n + (stop - (n + size n)) := by omega
      rw [List.flatMap_cons, ih hle (by omega), places, hrest, ← List.range'_append_1]
    case isFalse hge =>
      have hnone : stop - n = 0 := by omega
      rw [hnone]
      rfl

/-- Windows whose places are done one after the other. -/
theorem foldl_windows {T : Type} {R : S → T → Prop} {f : S → Nat → S} {g : T → Nat → T}
    {done : Nat → List Nat} {ks : List Nat}
    (h : ∀ k ∈ ks, ∀ s t, R s t → R (f s k) ((done k).foldl g t)) {s : S} {t : T} (hst : R s t) :
    R (ks.foldl f s) ((ks.flatMap done).foldl g t) := by
  induction ks generalizing s t with
  | nil => exact hst
  | cons k ks ih =>
    rw [List.foldl_cons, List.flatMap_cons, List.foldl_append]
    exact ih (fun k' hk' => h k' (List.mem_cons_of_mem _ hk')) (h k List.mem_cons_self s t hst)

end Windows
