/-
**Streaming decoders of UTF-8.**

A decoder that is fed the pieces of a stream and then ended, whatever it holds back in between. All
that is asked of it is that its outputs, put together, are the characters of the whole stream.

* `Measures`: a decoder and the size of its outputs, of a range of bytes that may still be open.
-/

import Mathlib.Data.List.Induction
import TianGong.Lib.Utf8

namespace TianGong.Utf8

/-- A decoder that was fed some pieces, and what it gave out. -/
def feedAll {State : Type} (decode : State → List UInt8 → State × List Char) (s : State)
    (pieces : List (List UInt8)) : State × List Char :=
  pieces.foldl (fun fed piece => ((decode fed.1 piece).1, fed.2 ++ (decode fed.1 piece).2)) (s, [])

/-- A streaming decoder, without handling of a byte-order mark. -/
structure StreamDecoder where
  State : Type
  start : State
  /-- Bytes that are not the last ones. -/
  decode : State → List UInt8 → State × List Char
  /-- The end of the stream. -/
  finish : State → List Char
  replaces : ∀ pieces, (feedAll decode start pieces).2 ++ finish (feedAll decode start pieces).1 =
    decodeChars pieces.flatten

theorem feedAll_concat {State : Type} (decode : State → List UInt8 → State × List Char) (s : State)
    (pieces : List (List UInt8)) (piece : List UInt8) :
    feedAll decode s (pieces ++ [piece]) =
      ((decode (feedAll decode s pieces).1 piece).1,
        (feedAll decode s pieces).2 ++ (decode (feedAll decode s pieces).1 piece).2) := by
  simp only [feedAll, List.foldl_append, List.foldl_cons, List.foldl_nil]

theorem feedAll_feed (d : Decoder) (pieces : List (List UInt8)) :
    feedAll Decoder.feed d pieces = d.feed pieces.flatten := by
  induction pieces using List.reverseRecOn with
  | nil => rfl
  | append_singleton pieces piece ih =>
    rw [feedAll_concat, ih, List.flatten_concat, Decoder.feed_append]

/-- The decoder that gives out a character as soon as it is complete. -/
def StreamDecoder.whatwg : StreamDecoder where
  State := Decoder
  start := {}
  decode := Decoder.feed
  finish := Decoder.flush
  replaces := by
    intro pieces
    rw [feedAll_feed]
    rfl

/-- The size of decoded text. -/
def sizeOfChars (cs : List Char) : Nat := (encodeChars cs).length

theorem sizeOfChars_append (cs ds : List Char) :
    sizeOfChars (cs ++ ds) = sizeOfChars cs + sizeOfChars ds := by
  unfold sizeOfChars
  rw [encodeChars_append, List.length_append]

/-! ### Ranges that are measured -/

/-- A range of a stream: it has not begun, has some bytes so far, or is over. -/
inductive Range where
  | unbegun
  | open_ (bytes : List UInt8)
  | ended (bytes : List UInt8)

namespace Range

/-- Bytes of a range that is open. -/
def feed (bytes : List UInt8) : Range → Range
  | open_ before => open_ (before ++ bytes)
  | range => range

def finish : Range → Range
  | open_ bytes => ended bytes
  | range => range

/-- The size of what the range decodes to, once it is over. -/
def size : Range → Nat
  | ended bytes => sizeOfChars (decodeChars bytes)
  | _ => 0

theorem feed_append (bytes more : List UInt8) (range : Range) :
    range.feed (bytes ++ more) = (range.feed bytes).feed more := by
  rcases range with _ | before | before
  · rfl
  · exact congrArg open_ (List.append_assoc ..).symm
  · rfl

@[simp] theorem feed_nil (range : Range) : range.feed [] = range := by
  rcases range with _ | before | before
  · rfl
  · exact congrArg open_ (List.append_nil _)
  · rfl

end Range

/-- A decoder that may be gone, and the size of its outputs, of a range. -/
inductive Measures (d : StreamDecoder) : Option d.State → Nat → Range → Prop
  | unbegun : Measures d none 0 .unbegun
  | open_ (pieces : List (List UInt8)) :
      Measures d (some (feedAll d.decode d.start pieces).1)
        (sizeOfChars (feedAll d.decode d.start pieces).2) (.open_ pieces.flatten)
  | ended (bytes : List UInt8) : Measures d none (sizeOfChars (decodeChars bytes)) (.ended bytes)

section Measures

variable {d : StreamDecoder} {decoder : Option d.State} {count : Nat} {range : Range}

/-- A decoder that begins, of a range that had not. -/
theorem Measures.begin (measures : Measures d decoder count .unbegun) :
    Measures d (some d.start) count (.open_ []) := by
  rcases measures with _ | _ | _
  exact .open_ []

/-- **Bytes that are decoded**, if there is a decoder. -/
theorem Measures.decode (measures : Measures d decoder count range) (bytes : List UInt8) :
    Measures d (decoder.map fun s => (d.decode s bytes).1)
      (count + (decoder.map fun s => sizeOfChars (d.decode s bytes).2).getD 0) (range.feed bytes)
        := by
  rcases measures with _ | pieces | ended
  · exact .unbegun
  · have more := Measures.open_ (d := d) (pieces ++ [bytes])
    rw [feedAll_concat, sizeOfChars_append, List.flatten_concat] at more
    exact more
  · exact .ended ended

/-- **A decoder that is ended**, if there is one. -/
theorem Measures.finish (measures : Measures d decoder count range) :
    Measures d none (count + (decoder.map fun s => sizeOfChars (d.finish s)).getD 0) range.finish
      := by
  rcases measures with _ | pieces | ended
  · exact .unbegun
  · have whole := Measures.ended (d := d) pieces.flatten
    rw [← d.replaces, sizeOfChars_append] at whole
    exact whole
  · exact .ended ended

/-- **What is measured of a range that is not open.** -/
theorem Measures.size_eq (measures : Measures d decoder count range)
    (closed : ∀ bytes, range ≠ .open_ bytes) : count = range.size := by
  rcases measures with _ | pieces | ended
  · rfl
  · exact (closed _ rfl).elim
  · rfl

end Measures

end TianGong.Utf8
