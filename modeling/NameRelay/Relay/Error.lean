-- SUMMARY: Why a relay refuses what it is asked to do.
import NameRelay.Config.Quoted
import NameRelay.Name.Basic
import NameRelay.Wire.Error

/-!
# Relay errors

Each error is a cause; `RelayError.message` has the wording.
-/

namespace NameRelay

/-- What is wrong with a configuration. -/
inductive ConfigError where
  /-- The text is no configuration, or a configuration cannot be written. -/
  | unreadable
  | interfaceAddress (text : String)
  | suite (text : String)
  | nextHop (text : String)
  deriving DecidableEq, Repr

def ConfigError.message : ConfigError → String
  | unreadable => "malformed"
  | interfaceAddress text => "bad interface address " ++ Quoted.encode text
  | suite text => "unknown suite " ++ Quoted.encode text
  | nextHop text => "bad next hop " ++ Quoted.encode text

/-- Why a relay refuses. -/
inductive RelayError where
  | decode (e : DecodeError)
  | encode (e : EncodeError)
  | name (e : NameError)
  /-- Every place in the content store is taken by a pinned packet. -/
  | cacheFull
  | queueFull (index : Nat)
  | noSuchFace
  /-- The local application has no queue. -/
  | localFace
  | noSuchInterface (index : Nat)
  | tooManyInterfaces
  | suiteMismatch (given expected : Suite)
  | timerUnavailable
  | config (e : ConfigError)
  deriving DecidableEq, Repr

def RelayError.message : RelayError → String
  | decode e => s!"decode failed: {e.message}"
  | encode e => s!"encode failed: {e.message}"
  | name e => s!"bad name: {e.message}"
  | cacheFull => "content store is full of static entries"
  | queueFull index => s!"transmit queue of interface {index} is full"
  | noSuchFace => "no such face"
  | localFace => "the local face has no transmit queue"
  | noSuchInterface index => s!"no such interface: {index}"
  | tooManyInterfaces => "interface table is full"
  | suiteMismatch given expected =>
      "prefix is " ++ given.name ++ ", rule is for " ++ expected.name
  | timerUnavailable => "platform could not arm a timer"
  | config e => s!"bad configuration: {e.message}"

/-- The word for the cause, without its particulars. -/
def RelayError.kind : RelayError → String
  | decode _ => "Decode"
  | encode _ => "Encode"
  | name _ => "Prefix"
  | cacheFull => "CacheFull"
  | queueFull _ => "QueueFull"
  | noSuchFace => "NoSuchFace"
  | localFace => "LocalFace"
  | noSuchInterface _ => "NoSuchInterface"
  | tooManyInterfaces => "TooManyInterfaces"
  | suiteMismatch _ _ => "SuiteMismatch"
  | timerUnavailable => "TimerUnavailable"
  | config _ => "Config"

end NameRelay
