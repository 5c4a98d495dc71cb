import Logit.Aggregate.Roundtrip
import Logit.Collectd.Time
import Logit.Core.Time
import Logit.Datadog.Send
import Logit.Datagram
import Logit.Delta.Resend
import Logit.EventJson.Grouping
import Logit.FileOut.Retention
import Logit.Hop.InFlight
import Logit.Hop.Senders
import Logit.Influx.WriteRead
import Logit.Kafka.Assignor
import Logit.Kafka.AtMostOnce
import Logit.Kafka.Candidate
import Logit.Kafka.Packing
import Logit.Kafka.SequenceSafety
import Logit.Kafka.Text
import Logit.Native.DecodeBudget
import Logit.Routing
import Logit.Sink.BatchedCalls
import Logit.Splunk.AtMostOnce
import Logit.Spool.Reads
import Logit.Spool.Recovery
