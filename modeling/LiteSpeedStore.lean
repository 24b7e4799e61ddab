import LiteSpeedStore.Wal.Binding
import LiteSpeedStore.Sha256.Streaming
import LiteSpeedStore.Wal.ReadFailure
import LiteSpeedStore.Wal.LiveVerify
import LiteSpeedStore.Engine.Refusal
import LiteSpeedStore.Snapshot
import LiteSpeedStore.Snapshot.Cursor
import LiteSpeedStore.Snapshot.Accepted
import LiteSpeedStore.Engine.FailedSnapshot
import LiteSpeedStore.Engine.DamagedSnapshot
import LiteSpeedStore.Engine.Failure
import LiteSpeedStore.Engine.FailedRotation
import LiteSpeedStore.Engine.LiveRecovery
import LiteSpeedStore.Engine.TornHeader
import LiteSpeedStore.Engine.SyncFailure
import LiteSpeedStore.Engine.ByteOrder
import LiteSpeedStore.Engine.DurableNames
import LiteSpeedStore.Engine.Stores
import LiteSpeedStore.Engine.History
import LiteSpeedStore.Engine.Modes
import LiteSpeedStore.Wal.Agreement
import LiteSpeedStore.Tools.Verify
import LiteSpeedStore.Engine.Epochs
import LiteSpeedStore.Engine.Narrowing
import LiteSpeedStore.Engine.Caps
import LiteSpeedStore.Engine.Writers
import LiteSpeedStore.Engine.Threads
import LiteSpeedStore.Wal.Threads
import LiteSpeedStore.FastTrace
import LiteSpeedStore.Tools.Anchor
import LiteSpeedStore.Engine.AnyFiles
import LiteSpeedStore.Engine.Errors
import LiteSpeedStore.Wal.Scan
