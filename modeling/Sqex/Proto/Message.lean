import Sqex.Proto.Primitives

/-! What a member posts: the parts of a message and the bodies that carry them,
edit them, take them down or describe the channel. -/
namespace Sqex

def editWindow : UInt64 := 24 * 60 * 60

structure Attachment where
  kind : UInt8
  blob : Bytes32
  key : Bytes32
  size : UInt64
  chunks : UInt32
  mime : String
  «meta» : Bytes
  preview : Bytes
  deriving DecidableEq, Inhabited

structure Link where
  url : String
  title : String
  description : String
  image : Option Attachment
  deriving DecidableEq

inductive Part where
  | text (text : String)
  | attachment (file : Attachment)
  | link (link : Link)
  | reply (seq : UInt64)
  | mention (who : PubKey)
  | via (exchange : PubKey)
  | said (posted : UInt64)
  | quote (feed : PubKey) (serial : UInt64)
  | regard (emoji : String)
  deriving DecidableEq

/-- The parts of a message, and a count of what could not be shown. The empty
post is what a redacted message holds. -/
structure Post where
  parts : List Part := []
  unknown : UInt64 := 0
  deriving DecidableEq

instance : Inhabited Post := ⟨{}⟩

inductive Body where
  | post (post : Post)
  | reaction (target : UInt64) (add : Bool) (emoji : String)
  | edit (target : UInt64) (post : Post)
  | redact (target : UInt64)
  | metadata (name topic : String) (avatar : Option Attachment)
  | call (media : UInt8) (ringSecs : UInt16) (secret : Bytes32)
  | callEnd (target : UInt64) (outcome : UInt8) (duration : UInt32)
  deriving DecidableEq

/-- A member's signed statement of who is in the channel at the epoch it creates. -/
structure Commit where
  epoch : UInt32
  committer : PubKey
  adds : List PubKey
  removes : List PubKey
  contribution : Bytes32
  transcript : Bytes32
  sig : Bytes64
  deriving DecidableEq

end Sqex
