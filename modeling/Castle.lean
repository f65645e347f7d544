import Castle.Mqtt.Client.Identifiers
import Castle.Mqtt.Client.Phase
import Castle.Mqtt.Client.Reentry
import Castle.Mqtt.Sections
import Castle.Mqtt.Broker.ExactlyOnce
import Castle.Mqtt.Broker.Sessions
import Castle.Mqtt.Broker.Stream
import Castle.Lib.LinkedTree
import Castle.Container.AvlTree.Map
import Castle.Lib.OrderedMap
import Castle.Container.HashTable.Map
import Castle.Container.SpscBufferDesc.Ownership
import Castle.Container.SpscBufferDesc.Delivery
import Castle.Container.MirroredRingBuffer.Safety
import Castle.Serialization.Json.Acceptance
import Castle.Serialization.Json.Render
import Castle.Serialization.Json.RoundTrip
import Castle.Serialization.Json.Builder
import Castle.Lib.EvictingList
import Castle.Http.Hpack.Coding
import Castle.Http.Hpack.Reading
import Castle.Http.Hpack.DynamicTable
import Castle.Http.Hpack.RoundTrip
import Castle.Http.Hpack.HuffmanStrings
import Castle.Lib.Cells
import Castle.Http.Http2.State
import Castle.Http.Http2.Splits
import Castle.Http.Http2.Api
import Castle.Http.Http2.Steps
import Castle.Http.Http2.Runs
import Castle.Http.Http2.Windows
import Castle.Http.Http2.Reports
import Castle.Http.Http2.Late
import Castle.Coap.RoundTrip
import Castle.Coap.UriPath
import Castle.Coap.RateLimit
import Castle.Http.Server.ResponseFraming
import Castle.Http.Server.RequestFraming
import Castle.Http.Server.Pipelining
import Castle.Http.Server.BuiltRequests
import Castle.Http.Http1.CompleteResponses
import Castle.Dns.StrayDatagrams
import Castle.Dns.Questions
import Castle.Nmea.Coordinates
import Castle.Nmea.Encoding
import Castle.Nmea.Resynchronisation
import Castle.Ubx.Stream
import Castle.Serialization.Csv.RoundTrip
import Castle.Serialization.Csv.Grammar
import Castle.Serialization.Ini.RoundTrip
import Castle.Serialization.Ini.Names
import Castle.Serialization.Xml.Utf8
import Castle.Timing.Ptp.Arithmetic
import Castle.Http.Http1.Outcomes
import Castle.Http.Http1.Pairing
import Castle.Io.Rpmsg.Runs
import Castle.Net.BasicServer.Reentry
import Castle.Mqtt.Utf8
import Castle.Mqtt.TopicMatching
import Castle.Mqtt.Properties
import Castle.Mqtt.Broker.Subscribe
import Castle.Mqtt.Broker.Expiry
import Castle.Mqtt.Broker.FanOut
import Castle.Mqtt.Client.Requests
import Castle.Sync.SharedMutex.Exclusion
import Castle.Diag.Runs
import Castle.Container.AvlTree.Clear
import Castle.Container.Heap
import Castle.Container.RingBuffer
import Castle.Container.ForwardList.Runs
import Castle.Algorithm.Search
import Castle.Utility.Bitset.Runs
import Castle.Serialization.Json.Diagnostics
import Castle.Serialization.Json.Structure
import Castle.Serialization.Json.Integers
import Castle.Timing.Ptp.Rejections
import Castle.Events.TickTimer
