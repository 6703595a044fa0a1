import Mathlib
import Acrobe.Lib.LittleEndian

/-!
# Telnet

`TelnetPipe` doubles the byte `IAC` in data and in sub-negotiations. Its reader takes the stream apart again, one
byte at a time, and hands negotiations to the options.
-/

namespace Acrobe.Telnet
open LittleEndian

def iac : UInt8 := 0xFF
def dont : UInt8 := 0xFE
def do_ : UInt8 := 0xFD
def wont : UInt8 := 0xFC
def will : UInt8 := 0xFB
def sb : UInt8 := 0xFA
def se : UInt8 := 0xF0

inductive Verb where
  | do_
  | dont
  | will
  | wont

def Verb.code : Verb → UInt8
  | .do_ => Telnet.do_
  | .dont => Telnet.dont
  | .will => Telnet.will
  | .wont => Telnet.wont

def verbOf (byte : UInt8) : Option Verb := [Verb.do_, .dont, .will, .wont].find? fun verb => verb.code = byte

/-! ### Sending -/

/-- `data.replace(bytes([IAC]), bytes([IAC, IAC]))` -/
def escape (data : Bytes) : Bytes := data.flatMap fun byte => if byte = iac then [iac, iac] else [byte]

def sendIac (parts : Bytes) : Bytes := iac :: parts

def sendSb (option : UInt8) (payload : Bytes) : Bytes := [iac, sb, option] ++ escape payload ++ [iac, se]

/-- What one side writes under the lock. -/
inductive Message where
  | data (data : Bytes)
  | verb (verb : Verb) (option : UInt8)
  | sb (option : UInt8) (payload : Bytes)

def Message.encode : Message → Bytes
  | .data bytes => escape bytes
  | .verb kind option => sendIac [kind.code, option]
  | .sb option payload => sendSb option payload

/-! ### Receiving -/

/-- The methods of an option. Each changes the state that the options share, and sends something or fails. -/
structure TelnetOption (σ : Type) where
  peer : Verb → Option (σ → Except String (σ × List Bytes))
  peerSb : Option (σ → Bytes → Except String (σ × List Bytes))

/-- What the reader puts in the buffer of user data, and what it hands to the options. -/
inductive Decoded where
  | byte (byte : UInt8)
  | verb (verb : Verb) (option : UInt8)
  | sb (option : UInt8) (payload : Bytes)

def Message.decoded : Message → List Decoded
  | .data bytes => bytes.map Decoded.byte
  | .verb kind option => [.verb kind option]
  | .sb option payload => [.sb option payload]

inductive Mode where
  | normal
  | gotIac
  | gotVerb
  | gotSb
  | inSb
  | sbIac

structure Reader (σ : Type) where
  mode : Mode
  verb : Verb
  sbOpt : UInt8
  sbPayload : Bytes
  decoded : List Decoded
  state : σ
  sent : List Bytes
  exited : Option String

namespace Reader

variable {σ : Type}

def start (state : σ) : Reader σ where
  mode := .normal
  verb := .do_
  sbOpt := 0
  sbPayload := []
  decoded := []
  state := state
  sent := []
  exited := none

def put (self : Reader σ) (item : Decoded) : Reader σ := { self with decoded := self.decoded ++ [item] }

def refuse (self : Reader σ) (verb : Verb) (option : UInt8) : Reader σ :=
  match verb with
  | .do_ => { self with sent := self.sent ++ [sendIac [wont, option]] }
  | .will => { self with sent := self.sent ++ [sendIac [dont, option]] }
  | _ => self

/-- The reader does not outlive a method that fails. -/
def settle (self : Reader σ) : Except String (σ × List Bytes) → Reader σ
  | .ok (state, sent) => { self with state, sent := self.sent ++ sent }
  | .error error => { self with exited := some error }

def handleVerb (self : Reader σ) (options : UInt8 → Option (TelnetOption σ)) (verb : Verb) (option : UInt8) : Reader σ :=
  let self := self.put (.verb verb option)
  match (options option).bind fun handler => handler.peer verb with
  | none => self.refuse verb option
  | some method => self.settle (method self.state)

def handleSb (self : Reader σ) (options : UInt8 → Option (TelnetOption σ)) (option : UInt8) (payload : Bytes) : Reader σ :=
  let self := self.put (.sb option payload)
  match (options option).bind TelnetOption.peerSb with
  | none => self
  | some method => self.settle (method self.state payload)

def readByte (self : Reader σ) (options : UInt8 → Option (TelnetOption σ)) (byte : UInt8) : Reader σ :=
  match self.mode with
  | .normal => if byte = iac then { self with mode := .gotIac } else self.put (.byte byte)
  | .gotIac =>
    if byte = iac then { self.put (.byte iac) with mode := .normal }
    else
      match verbOf byte with
      | some verb => { self with verb, mode := .gotVerb }
      | none => if byte = sb then { self with mode := .gotSb } else { self with mode := .normal }
  | .gotVerb => { self.handleVerb options self.verb byte with mode := .normal }
  | .gotSb => { self with sbOpt := byte, sbPayload := [], mode := .inSb }
  | .inSb => if byte = iac then { self with mode := .sbIac } else { self with sbPayload := self.sbPayload ++ [byte] }
  | .sbIac =>
    if byte = iac then { self with sbPayload := self.sbPayload ++ [iac], mode := .inSb }
    else { self.handleSb options self.sbOpt self.sbPayload with mode := .normal }

def step (self : Reader σ) (options : UInt8 → Option (TelnetOption σ)) (byte : UInt8) : Reader σ :=
  match self.exited with
  | none => self.readByte options byte
  | some _ => self

/-- One pass of the loop. -/
def feed (self : Reader σ) (options : UInt8 → Option (TelnetOption σ)) (chunk : Bytes) : Reader σ :=
  chunk.foldl (fun reader byte => reader.step options byte) self

def serve (self : Reader σ) (options : UInt8 → Option (TelnetOption σ)) (chunks : List Bytes) : Reader σ :=
  chunks.foldl (fun reader chunk => reader.feed options chunk) self

/-! ### Round trip -/

variable {options : UInt8 → Option (TelnetOption σ)}

/-- A reader has heard something more, and is between two items. If an option has failed meanwhile, it has heard
the items up to that one. -/
structure Hears (later reader : Reader σ) (items : List Decoded) : Prop where
  heard : later.exited = none → later.mode = .normal ∧ later.decoded = reader.decoded ++ items
  front : later.decoded <+: reader.decoded ++ items

theorem feed_append (reader : Reader σ) (front back : Bytes) :
    reader.feed options (front ++ back) = (reader.feed options front).feed options back :=
  List.foldl_append

theorem Hears.trans {last later reader : Reader σ} {xs ys : List Decoded} (second : last.Hears later ys)
    (first : later.Hears reader xs) (alive : later.exited = none) : last.Hears reader (xs ++ ys) := by
  have here := (first.heard alive).2
  constructor
  · intro still
    rw [← List.append_assoc, ← here]
    exact second.heard still
  · rw [← List.append_assoc, ← here]
    exact second.front

end Reader

end Acrobe.Telnet
