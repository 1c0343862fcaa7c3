import ChunkFilters.Aec.Block
import ChunkFilters.Bytes

/-!
# The adaptive entropy code

`decode` reads blocks until there are as many samples as wanted, cuts each sample to its width, and
writes it to as many bytes as that needs.
-/

namespace ChunkFilters.Aec

def readBlocks (task : Task) (state : State) : Except Error Samples :=
  if state.samples.isComplete task.wanted then .ok state.samples
  else
    match h : readBlock task state with
    | .error error => .error error
    | .ok next =>
      have := readBlock_budget_lt h
      readBlocks task next
termination_by state.cursor.budget

def sampleBytes (parameters : Parameters) (sample : Nat) : Bytes :=
  let bytes := Bytes.toLittleEndian parameters.sampleSize sample
  if parameters.bigEndian then bytes.reverse else bytes

def decode (parameters : Parameters) (wanted : Nat) (input : Bytes) : Except Error Bytes :=
  if parameters.hasBlockSize then
    match readBlocks ⟨parameters, wanted⟩ ⟨.start input, {}, 0⟩ with
    | .error error => .error error
    | .ok samples =>
      let limit := 1 <<< parameters.bits
      .ok (samples.values.toList.flatMap fun sample => sampleBytes parameters (sample % limit))
  else .error .unsupportedBlockSize

end ChunkFilters.Aec
