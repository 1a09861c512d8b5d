import TcpTests.Lib.Block
import TcpTests.Lib.Machine

/-! The class `GenStg`. A text is what `vsnprintf` makes of a format and its arguments. The buffer
is a block of the heap, and a method that would store outside of it is `none`. -/
namespace TcpTests
open Lib

structure GenStg where
  mBuf : List Byte
  mSize : ℕ
  mStrlen : ℕ
  deriving DecidableEq, Repr

namespace GenStg

/-- Bump for each increment. -/
def mIncrement : ℕ := 64

def sclear (s : GenStg) : Option GenStg :=
  (Block.write s.mBuf 0 [0]).map fun mBuf => { s with mBuf := mBuf, mStrlen := 0 }

/-- `m_appendf` for Windows: the text is formatted again in a longer block until it fits. -/
def mAppendfWindows (heap : Heap) (s : GenStg) (text : List Byte) : Option GenStg :=
  match _h : vsnprintfS s.mBuf s.mStrlen (s.mSize - s.mStrlen) (s.mSize - s.mStrlen - 1) text with
  | none => none
  | some (mBuf, newLen) =>
    if newLen < 0 then
      mAppendfWindows heap
        { s with
          mSize := s.mSize + mIncrement
          mBuf := Block.realloc heap mBuf (s.mSize + mIncrement) } text
    else some { s with mBuf := mBuf, mStrlen := s.mStrlen + newLen.toNat }
termination_by s.mStrlen + text.length + 1 - s.mSize
decreasing_by
  obtain ⟨_, _⟩ := vsnprintfS_cut _h ‹_›
  dsimp only [mIncrement]
  omega

/-- `m_appendf` for other systems: a text that does not fit is formatted a second time. -/
def mAppendfUnix (heap : Heap) (s : GenStg) (text : List Byte) : Option GenStg := do
  let (mBuf, newLen) ← vsnprintf s.mBuf s.mStrlen (s.mSize - s.mStrlen) text
  if newLen + 1 > s.mSize - s.mStrlen then
    let mSize := (s.mStrlen + newLen + 1 + mIncrement) / mIncrement * mIncrement
    let mBuf := Block.realloc heap mBuf mSize
    let (mBuf, _) ← vsnprintf mBuf s.mStrlen (mSize - s.mStrlen) text
    some { mBuf := mBuf, mSize := mSize, mStrlen := s.mStrlen + newLen }
  else some { s with mBuf := mBuf, mStrlen := s.mStrlen + newLen }

def mAppendf (p : Platform) (heap : Heap) (s : GenStg) (text : List Byte) : Option GenStg :=
  match p with
  | .windows => mAppendfWindows heap s text
  | .unix => mAppendfUnix heap s text

def sprintf (p : Platform) (heap : Heap) (s : GenStg) (text : List Byte) : Option GenStg := do
  let s ← s.sclear
  s.mAppendf p heap text

def appendf (p : Platform) (heap : Heap) (s : GenStg) (text : List Byte) : Option GenStg :=
  s.mAppendf p heap text

/-- What both constructors begin with. -/
def alloc (heap : Heap) : GenStg where
  mBuf := Block.malloc heap mIncrement
  mSize := mIncrement
  mStrlen := 0

/-- The constructors: without an argument, and with a text. -/
def new (p : Platform) (heap : Heap) : Option (List Byte) → Option GenStg
  | none => (alloc heap).sclear
  | some stg => (alloc heap).sprintf p heap stg

inductive Call
  | sclear
  | sprintf (text : List Byte)
  | appendf (text : List Byte)
  deriving DecidableEq, Repr

def call (p : Platform) (heap : Heap) (s : GenStg) : Call → Option GenStg
  | .sclear => s.sclear
  | .sprintf text => s.sprintf p heap text
  | .appendf text => s.appendf p heap text

/-- The text that a call leaves when `text` was there before. -/
def Call.text (text : List Byte) : Call → List Byte
  | .sclear => []
  | .sprintf t => t
  | .appendf t => text ++ t

/-- What has been formatted since the last call that clears. -/
def contents (stg : Option (List Byte)) (calls : List Call) : List Byte :=
  calls.foldl Call.text (stg.getD [])

/-- An object after its construction and a sequence of calls. -/
def after (p : Platform) (heap : Heap) (stg : Option (List Byte)) (calls : List Call) :
    Option GenStg := do
  let s ← new p heap stg
  runs (call p heap) s calls

end GenStg

end TcpTests
