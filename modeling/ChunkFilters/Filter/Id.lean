/-!
# Filter identifiers

A filter is named by a number of 16 bits. The numbers below 256 belong to the library; the others
are left to whoever stores the chunks, and no filter can be registered under them.
-/

namespace ChunkFilters

structure FilterId where
  value : UInt16
deriving DecidableEq, Repr

namespace FilterId

def deflate : FilterId := ⟨1⟩
def shuffle : FilterId := ⟨2⟩
def fletcher32 : FilterId := ⟨3⟩
def szip : FilterId := ⟨4⟩
def nbit : FilterId := ⟨5⟩
def scaleOffset : FilterId := ⟨6⟩

/-- The largest identifier that belongs to the library. -/
def largestOwned : Nat := 255

def isLibraryOwned (id : FilterId) : Bool := decide (id.value.toNat ≤ largestOwned)

instance : ToString FilterId := ⟨fun id => toString id.value.toNat⟩

theorem isLibraryOwned_iff (id : FilterId) : id.isLibraryOwned = true ↔ id.value.toNat < 256 := by
  rw [isLibraryOwned, decide_eq_true_iff]
  exact Nat.lt_succ_iff.symm

end FilterId

end ChunkFilters
