import SimpleSrv.Lib.CInt
import SimpleSrv.Lib.Errno
import SimpleSrv.Nebula.Buffer

/-! Reading and writing of a nebula connection, over the answers that the kernel gives to it. -/

namespace SimpleSrv.Nebula

/-- `Connection::State`. -/
inductive ConnState where
  | invalid | handshaking | connected | closed | failed
  deriving DecidableEq, Repr

/-- The fields of `Connection` that reading and writing use. -/
structure Connection where
  state : ConnState
  readBuffer : Buffer
  sendBuffer : Buffer
  deriving DecidableEq, Repr

/-- What the kernel answers to one call of `read`. -/
inductive ReadAnswer where
  /-- The call returned the number of these bytes, which is zero at the end of the input. -/
  | received (bytes : List Byte)
  /-- The call returned -1 with this `errno`. -/
  | failed (errno : Int)
  deriving DecidableEq, Repr

/-- The size of `buf` in `Connection::ReadNonBlocking`. -/
def readSize : Nat := 1024

/-- The loop of `Connection::ReadNonBlocking`, where `none` says that it has not returned. -/
def readLoop (conn : Connection) : List ReadAnswer → Option Connection
  | [] => none
  | .received bytes :: rest =>
    -- The kernel never writes more bytes than `buf` has.
    if bytes.length ≤ readSize then
      if 0 < bytes.length then
        -- Behind the bytes received stand the zeros that `memset` has written.
        let buf := bytes ++ List.replicate (readSize - bytes.length) 0
        readLoop { conn with readBuffer := conn.readBuffer.append buf bytes.length } rest
      else some { conn with state := .closed }
    else none
  | .failed errno :: rest =>
    if errno = eintr then readLoop conn rest
    -- On Linux `EWOULDBLOCK` is another name of `EAGAIN`.
    else if errno = eagain then some conn
    else some { conn with state := .closed }

/-- `Connection::ReadBlocking`, with the size of the receive buffer that the kernel reports. -/
def readBlocking (conn : Connection) (rcvSize : Nat) : List ReadAnswer → Option Connection
  | [] => none
  | .received bytes :: _ =>
    if bytes.length ≤ rcvSize then
      if 0 < bytes.length then
        some { conn with readBuffer := conn.readBuffer.append bytes bytes.length }
      else some { conn with state := .closed }
    else none
  | .failed _ :: _ => some { conn with state := .closed }

/-- `Connection::Read`. -/
def Connection.read (conn : Connection) (nonBlocking : Bool) (rcvSize : Nat)
    (answers : List ReadAnswer) : Option Connection :=
  -- The assertion ends the process when the connection is not in state `Connected`.
  if conn.state = .connected then
    let conn := { conn with readBuffer := conn.readBuffer.clear }
    if nonBlocking then readLoop conn answers else readBlocking conn rcvSize answers
  else none

/-- What the kernel answers to one call of `write`. -/
inductive WriteAnswer where
  /-- The call returned this count, and the kernel has taken that many bytes. -/
  | accepted (count : Nat)
  /-- The call returned -1 with this `errno`. -/
  | failed (errno : Int)
  deriving DecidableEq, Repr

/-- What a run of `write` calls leaves behind. -/
structure Sent where
  /-- The bytes the kernel took, in order. -/
  taken : List Byte
  state : ConnState
  deriving DecidableEq, Repr

/-- The loop of `Connection::WriteNonBlocking`, from the current `data_left` on. -/
def writeLoop (buf : List Byte) (dataSize dataLeft : Int) (state : ConnState) :
    List WriteAnswer → Option Sent
  | [] =>
    -- Without a further answer the loop has returned only if nothing is left to send.
    if 0 < dataLeft then none else some ⟨[], state⟩
  | answer :: rest =>
    if 0 < dataLeft then
      match answer with
      | .failed errno =>
        if errno = eintr then writeLoop buf dataSize dataLeft state rest
        else if errno = eagain then some ⟨[], state⟩
        else some ⟨[], .closed⟩
      | .accepted count =>
        -- The kernel never takes more bytes than the call offers.
        if (count : Int) ≤ dataLeft then
          let chunk := (buf.drop (dataSize - dataLeft).toNat).take count
          (writeLoop buf dataSize (dataLeft - count) state rest).map fun sent =>
            { sent with taken := chunk ++ sent.taken }
        else none
    else some ⟨[], state⟩

/-- `Connection::WriteNonBlocking`, where `none` says that it has not returned. -/
def writeNonBlocking (conn : Connection) (answers : List WriteAnswer) : Option Sent :=
  let buf := conn.sendBuffer.toStr
  -- Both counters are of type `int`, while the buffer's size is an `ssize_t`.
  let dataSize := toInt conn.sendBuffer.size
  writeLoop buf dataSize dataSize conn.state answers

/-- `Connection::WriteBlocking`, where `none` says that it has not returned. -/
def writeBlocking (conn : Connection) : List WriteAnswer → Option Sent
  | [] => none
  | .failed _ :: _ => some ⟨[], .closed⟩
  | .accepted count :: _ =>
    if count ≤ conn.sendBuffer.size then some ⟨conn.sendBuffer.toStr.take count, conn.state⟩
    else none

/-- `Connection::Write`, with the bytes that the kernel took during the call. -/
def Connection.write (conn : Connection) (nonBlocking : Bool) (answers : List WriteAnswer) :
    Option (Connection × List Byte) :=
  -- The assertion ends the process when the connection is not in state `Connected`.
  if conn.state = .connected then
    let sent := if nonBlocking then writeNonBlocking conn answers else writeBlocking conn answers
    sent.map fun sent =>
      ({ conn with state := sent.state, sendBuffer := conn.sendBuffer.clear }, sent.taken)
  else none

end SimpleSrv.Nebula
