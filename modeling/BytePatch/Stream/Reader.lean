import BytePatch.Fault
/-!
Byte streams to read from. A stream is the list of blocks its reads deliver, so that a stream
read in any rhythm is one value; after the last block it ends, or it fails for good.
-/
namespace BytePatch

/-- `failure?` is what every read meets once the blocks are used up; without one the stream has
come to its end. A read that wants less than a block leaves the rest for the next one. -/
structure Reader where
  blocks : List Bytes
  failure? : Option IoFault
deriving DecidableEq

/-- A string cut into blocks of `size` bytes, the last one shorter if need be. A block has at
least one byte. -/
def blocksOf (size : Nat) (bytes : Bytes) : List Bytes :=
  match bytes with
  | [] => []
  | byte :: rest => (byte :: rest.take (size - 1)) :: blocksOf size (rest.drop (size - 1))
termination_by bytes.length
decreasing_by simp only [List.length_drop, List.length_cons]; omega

/-- The blocks in a row are the string. -/
theorem flatten_blocksOf (size : Nat) (bytes : Bytes) : (blocksOf size bytes).flatten = bytes := by
  fun_induction blocksOf size bytes with
  | case1 => rfl
  | case2 byte rest ih => simp [ih]

theorem length_le_of_mem_blocksOf {size : Nat} {bytes block : Bytes}
    (h : block ∈ blocksOf size bytes) : block.length ≤ max 1 size := by
  fun_induction blocksOf size bytes with
  | case1 => cases h
  | case2 byte rest ih =>
    rcases List.mem_cons.1 h with rfl | h
    · simp only [List.length_cons, List.length_take]; omega
    · exact ih h

namespace Reader

/-- A stream that delivers a whole string in one read. -/
def ofBytes (bytes : Bytes) : Reader := ⟨[bytes], none⟩

/-- Everything the stream still delivers. -/
def contents (reader : Reader) : Bytes := reader.blocks.flatten

/-- What a read of a number of bytes came to: the bytes, and the failure that cut it short. A
short read without a failure has met the end of the stream. -/
structure Taken where
  bytes : Bytes
  failure? : Option IoFault
  rest : Reader

/-- Read on until `count` bytes are there or the stream delivers no more. Once the last wanted
byte is there nothing more is asked of the stream. -/
def take (count : Nat) (reader : Reader) : Taken :=
  go count reader.blocks
where
  go : Nat → List Bytes → Taken
    | 0, blocks => ⟨[], none, ⟨blocks, reader.failure?⟩⟩
    | _ + 1, [] => ⟨[], reader.failure?, ⟨[], reader.failure?⟩⟩
    | count + 1, block :: blocks =>
      if block.length ≤ count + 1 then
        let more := go (count + 1 - block.length) blocks
        { more with bytes := block ++ more.bytes }
      else
        ⟨block.take (count + 1), none, ⟨block.drop (count + 1) :: blocks, reader.failure?⟩⟩

private theorem go_contents (reader : Reader) (count : Nat) (blocks : List Bytes) :
    (take.go reader count blocks).bytes ++ (take.go reader count blocks).rest.contents =
      blocks.flatten := by
  fun_induction take.go reader count blocks with
  | case1 blocks => simp [contents]
  | case2 => simp [contents]
  | case3 count block blocks h more ih => simpa [more] using ih
  | case4 count block blocks h => simp [contents, ← List.append_assoc]

/-- Nothing is lost between what was read and what is left. -/
theorem take_contents (count : Nat) (reader : Reader) :
    (reader.take count).bytes ++ (reader.take count).rest.contents = reader.contents :=
  go_contents reader count reader.blocks

end Reader

end BytePatch
